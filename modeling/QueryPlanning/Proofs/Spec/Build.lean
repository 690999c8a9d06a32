import QueryPlanning.Proofs.Plan.Assembly
import QueryPlanning.Spec.Build

/-!
# Plans from specifications

What is built from a specification is well formed: the operators become nodes children first, and a
fragment is cut below every exchange and at the top.
-/

namespace QueryPlanning

open Outcome (Runs)

theorem Node.Unplaced.of_kind {n : Node} (hfragment : n.fragment = .invalid)
    (hkind : ∀ f, n.kind ≠ .exchange f) (hjoin : ∀ join, n.kind ≠ .join join) : n.Unplaced where
  input := by
    cases hinput : n.input? with
    | none => rfl
    | some f => exact absurd (Node.input?_eq_some.mp hinput) (hkind f)
  fragment := hfragment
  table hk := absurd hk (hjoin _)

namespace Session

variable {s s' : Session} {loose : List NodeId} {opens : List FragmentId}

theorem Built.of_add {node : NodeId → Node} {id : NodeId} (hs : s.add node = (id, s'))
    (h : s.Built ((node s.nextNode).children ++ loose) opens)
    (hid : (node s.nextNode).id = s.nextNode) (hnew : (node s.nextNode).Unplaced) :
    s'.Built (id :: loose) opens := by
  obtain ⟨rfl, rfl⟩ := Prod.mk.inj hs
  exact h.add hid hnew

theorem Built.addUnary {kind : NodeKind} (children : List NodeId) {limit : Int}
    {conjuncts : List Expr} {id : NodeId} (h : s.Built (children ++ loose) opens)
    (hkind : ∀ f, kind ≠ .exchange f) (hjoin : ∀ join, kind ≠ .join join)
    (hs : s.addUnary kind children limit conjuncts = .ok (id, s')) :
    s'.Built (id :: loose) opens := by
  simp only [Session.addUnary, Outcome.bind_eq_ok, Outcome.pure_eq_ok] at hs
  obtain ⟨input, _, hs⟩ := hs
  refine .of_add hs h rfl ?_
  exact .of_kind rfl hkind hjoin

theorem Built.addJoin {join : Join} {probe build id : NodeId}
    (h : s.Built (probe :: build :: loose) opens) (htable : join.table.isValid = false)
    (hs : s.addJoin join probe build = .ok (id, s')) : s'.Built (id :: loose) opens := by
  simp only [Session.addJoin, Outcome.bind_eq_ok, Outcome.pure_eq_ok] at hs
  obtain ⟨input, _, hs⟩ := hs
  refine .of_add hs h rfl ⟨rfl, rfl, ?_⟩
  rintro _ ⟨⟩
  exact htable

theorem Built.addUnion {children : List NodeId} {id : NodeId}
    (h : s.Built (children ++ loose) opens) (hs : s.addUnion children = .ok (id, s')) :
    s'.Built (id :: loose) opens := by
  simp only [Session.addUnion, Outcome.bind_eq_ok, Outcome.pure_eq_ok] at hs
  obtain ⟨inputs, _, hs⟩ := hs
  refine .of_add hs h rfl ⟨rfl, rfl, ?_⟩
  rintro _ ⟨⟩

theorem Built.addSource {kind : NodeKind} {rows : Int} {id : NodeId} (h : s.Built loose opens)
    (hkind : ∀ f, kind ≠ .exchange f) (hjoin : ∀ join, kind ≠ .join join)
    (hs : s.addSource kind rows = (id, s')) : s'.Built (id :: loose) opens := by
  refine .of_add hs h rfl ?_
  exact .of_kind rfl hkind hjoin

/-- A scan is planned, which may number hosts, and its node is added. -/
theorem exists_planned {t : Table} {predicates : List KeyPredicate} {columns : Nat} {limit : Int}
    {id : NodeId} (hs : s.addScan t predicates columns limit = (.ok id, s')) :
    ∃ planned hosts,
      Runs (Scan.plan s.options s.cluster t predicates columns limit) s.hosts planned hosts ∧
      ({ s with hosts } : Session).add (fun id ↦
        { id, kind := .scan planned.scan, children := [], rows := planned.rows,
          inputRows := planned.scan.stats.rows, limit, hosts := planned.nodes }) = (id, s') := by
  unfold Session.addScan at hs
  split at hs
  · cases hs
  · rename_i planned s₁ hplanned
    obtain ⟨hid, hadd⟩ := Prod.mk.inj hs
    obtain ⟨hok, rfl⟩ := Prod.mk.inj hplanned
    exact ⟨planned, _, Prod.ext hok rfl, Prod.ext (Except.ok.inj hid) hadd⟩

theorem Built.addScan {t : Table} {predicates : List KeyPredicate} {columns : Nat} {limit : Int}
    {id : NodeId} (h : s.Built loose opens)
    (hs : s.addScan t predicates columns limit = (.ok id, s')) :
    s'.Built (id :: loose) opens := by
  obtain ⟨planned, hosts, _, hadd⟩ := exists_planned hs
  have hbuilt : ({ s with hosts } : Session).Built loose opens := h.environment rfl rfl
  refine .of_add hadd hbuilt rfl (.of_kind rfl ?_ ?_)
  · exact fun _ ↦ NodeKind.noConfusion
  · exact fun _ ↦ NodeKind.noConfusion

theorem Built.cutFragment {root : NodeId} {partitioning : Partitioning} {f : FragmentId}
    (h : s.Built (root :: loose) opens) (hs : s.cut root partitioning = .ok (f, s')) :
    s'.Built loose (f :: opens) := by
  simp only [Session.cut, Outcome.bind_eq_ok, Outcome.pure_eq_ok] at hs
  obtain ⟨⟨g, s₁⟩, hcreate, hs⟩ := hs
  obtain ⟨rfl, rfl⟩ := Prod.mk.inj hs
  have hcut := h.cut hcreate
  split
  · exact hcut
  · exact hcut.estimate (fun _ ↦ rfl) (fun _ ↦ rfl) (fun _ ↦ rfl) (fun _ ↦ rfl)

theorem Built.cutExchange {root : NodeId} {sent own : Partitioning} {e : NodeId}
    (h : s.Built (root :: loose) opens) (hs : s.cutExchange root sent own = .ok (e, s')) :
    s'.Built (e :: loose) opens := by
  simp only [Session.cutExchange, Outcome.bind_eq_ok, Outcome.pure_eq_ok] at hs
  obtain ⟨⟨f, s₁⟩, hcut, ⟨e', s₂⟩, hexchange, hs⟩ := hs
  obtain ⟨rfl, rfl⟩ := Prod.mk.inj hs
  refine ((h.cutFragment hcut).exchange hexchange).estimate ?_ ?_ ?_ ?_
  all_goals exact fun _ ↦ rfl

end Session

namespace NodeSpec

mutual

theorem built {catalog : Catalog} {s s' : Session} {loose : List NodeId}
    {opens : List FragmentId} {id : NodeId} (h : s.Built loose opens) :
    (spec : NodeSpec) → spec.build catalog s = .ok (id, s') → s'.Built (id :: loose) opens
  | .scan table predicates columns limit, hs => by
    simp only [build, Outcome.bind_eq_ok, Outcome.pure_eq_ok] at hs
    obtain ⟨t, _, i, hi, hs⟩ := hs
    obtain ⟨rfl, rfl⟩ := Prod.mk.inj hs
    exact h.addScan (Prod.ext hi rfl)
  | .join spec probe side, hs => by
    simp only [build, Outcome.bind_eq_ok] at hs
    obtain ⟨⟨p, s₁⟩, hp, ⟨b, s₂⟩, hb, hs⟩ := hs
    have hbuilt := built (built h probe hp) side hb
    exact (hbuilt.perm (.swap p b loose) (.refl _)).addJoin rfl hs
  | .exchange sent own input, hs => by
    simp only [build, Outcome.bind_eq_ok] at hs
    obtain ⟨⟨root, s₁⟩, hinput, hs⟩ := hs
    exact (built h input hinput).cutExchange hs
  | .subplan input evaluated, hs => by
    simp only [build, Outcome.bind_eq_ok] at hs
    obtain ⟨⟨i, s₁⟩, hi, ⟨e, s₂⟩, he, hs⟩ := hs
    have hbuilt := built (built h input hi) evaluated he
    exact (hbuilt.perm (.swap i e loose) (.refl _)).addUnary [i, e]
      (fun _ ↦ NodeKind.noConfusion) (fun _ ↦ NodeKind.noConfusion) hs
  | .aggregation spec input, hs => by
    simp only [build, Outcome.bind_eq_ok] at hs
    obtain ⟨⟨i, s₁⟩, hi, hs⟩ := hs
    exact (built h input hi).addUnary [i]
      (fun _ ↦ NodeKind.noConfusion) (fun _ ↦ NodeKind.noConfusion) hs
  | .select conjuncts input, hs => by
    simp only [build, Outcome.bind_eq_ok] at hs
    obtain ⟨⟨i, s₁⟩, hi, hs⟩ := hs
    exact (built h input hi).addUnary [i]
      (fun _ ↦ NodeKind.noConfusion) (fun _ ↦ NodeKind.noConfusion) hs
  | .sort keys limit input, hs => by
    simp only [build, Outcome.bind_eq_ok] at hs
    obtain ⟨⟨i, s₁⟩, hi, hs⟩ := hs
    exact (built h input hi).addUnary [i]
      (fun _ ↦ NodeKind.noConfusion) (fun _ ↦ NodeKind.noConfusion) hs
  | .union inputs, hs => by
    simp only [build, Outcome.bind_eq_ok] at hs
    obtain ⟨⟨children, s₁⟩, hi, hs⟩ := hs
    exact (builtAll h inputs hi).addUnion hs
  | .unnest collection, hs =>
    h.addSource (fun _ ↦ NodeKind.noConfusion) (fun _ ↦ NodeKind.noConfusion) (Except.ok.inj hs)
  | .singularRow, hs =>
    h.addSource (fun _ ↦ NodeKind.noConfusion) (fun _ ↦ NodeKind.noConfusion) (Except.ok.inj hs)
  | .emptySet, hs =>
    h.addSource (fun _ ↦ NodeKind.noConfusion) (fun _ ↦ NodeKind.noConfusion) (Except.ok.inj hs)

theorem builtAll {catalog : Catalog} {s s' : Session} {loose : List NodeId}
    {opens : List FragmentId} {ids : List NodeId} (h : s.Built loose opens) :
    (specs : List NodeSpec) → buildAll catalog s specs = .ok (ids, s') →
      s'.Built (ids ++ loose) opens
  | [], hs => by
    obtain ⟨rfl, rfl⟩ := Prod.mk.inj (Except.ok.inj hs)
    exact h
  | spec :: rest, hs => by
    simp only [buildAll, Outcome.bind_eq_ok, Outcome.pure_eq_ok] at hs
    obtain ⟨⟨i, s₁⟩, hi, ⟨is, s₂⟩, his, hs⟩ := hs
    obtain ⟨rfl, rfl⟩ := Prod.mk.inj hs
    have hbuilt := builtAll (built h spec hi) rest his
    exact hbuilt.perm List.perm_middle (.refl _)

end

end NodeSpec

/-- What is built from a specification is a complete plan. -/
theorem PlanSpec.wellFormed_of_buildFrom {spec : PlanSpec} {catalog : Catalog} {cluster : Cluster}
    {options : Options} {root : FragmentId} {s : Session}
    (h : spec.buildFrom catalog cluster options = .ok (root, s)) : s.WellFormed root := by
  simp only [buildFrom, Outcome.bind_eq_ok, Outcome.pure_eq_ok] at h
  obtain ⟨⟨node, s₁⟩, hnode, ⟨f, s₂⟩, hcut, kind, _, h⟩ := h
  obtain ⟨rfl, rfl⟩ := Prod.mk.inj h
  have hempty : Session.Built { options, cluster := spec.clusterOr cluster } [] [] :=
    .empty rfl rfl
  exact ((spec.root.built hempty hnode).cutFragment hcut).setSink List.mem_cons_self

theorem PlanSpec.registerTables_of_build {spec : PlanSpec} {catalog catalog' : Catalog}
    {cluster : Cluster} {options : Options} {result : FragmentId × Session}
    (h : spec.build catalog cluster options = (.ok result, catalog')) :
    registerTables spec.tables catalog = (.ok (), catalog') := by
  unfold build at h
  split at h
  · rename_i hregister
    obtain ⟨-, rfl⟩ := Prod.mk.inj h
    exact hregister
  · cases h

/-- The tables that a plan reads are those of the catalog after they are added. -/
theorem PlanSpec.buildFrom_of_build {spec : PlanSpec} {catalog catalog' : Catalog}
    {cluster : Cluster} {options : Options} {result : FragmentId × Session}
    (h : spec.build catalog cluster options = (.ok result, catalog')) :
    spec.buildFrom catalog' cluster options = .ok result := by
  unfold build at h
  split at h
  · obtain ⟨hresult, rfl⟩ := Prod.mk.inj h
    exact hresult
  · cases h

end QueryPlanning
