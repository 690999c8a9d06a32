import Mathlib.Order.Bounds.Basic
import QueryPlanning.Proofs.Plan.Walks
import QueryPlanning.Proofs.Spec.NodeTallies

/-!
# Row bounds

The row bound of a plan is -1 if the number of rows that some node of its fragments processes cannot
be bounded, and otherwise the largest of these numbers. The walk that finds it ends at the first
node without a bound, wherever that is, and passes all nodes if there is none.
-/

namespace QueryPlanning

namespace Node

variable {n : Node}

/-- The number of rows that a node processes cannot be bounded. -/
inductive Unbounded (n : Node) : Prop
  | join {join : Join} (hkind : n.kind = .join join)
  | collection {scan : Scan} (hkind : n.kind = .scan scan)
      (hcomplex : ∃ c ∈ scan.table.columns, c.type.isComplex = true)
  | uncounted {scan : Scan} (hkind : n.kind = .scan scan) (hlimit : n.hasLimit = false)
      (hrows : scan.table.rows = -1 ∨ scan.stats.corrupt = true)
  | unknown (hscan : n.scan? = none) (hrows : n.rows = -1 ∨ n.inputRows = -1)

/-- The rows that a node processes: a scan those that it reads, other nodes those that come in or go
out, whichever are more. -/
def processed (n : Node) : Int :=
  if n.scan?.isSome then n.inputRows else max n.inputRows n.rows

theorem rowBound?_of_unbounded (h : n.Unbounded) : n.rowBound? = none := by
  cases h with
  | join hkind => rw [rowBound?, hkind]
  | @collection scan hkind hcomplex =>
    have hreads : scan.readsCollection = true := List.any_eq_true.mpr hcomplex
    rw [rowBound?, hkind]
    dsimp only
    rw [hreads]
    rfl
  | @uncounted scan hkind hlimit hrows =>
    have hunknown : (scan.lacksRowCount || scan.stats.corrupt) = true := by
      rw [Bool.or_eq_true, Scan.lacksRowCount, beq_iff_eq]
      exact hrows
    rw [rowBound?, hkind]
    dsimp only
    rw [hunknown, hlimit]
    exact if_pos (Bool.or_true _)
  | unknown hscan hrows =>
    unfold rowBound?
    cases hkind : n.kind with
    | scan =>
      rw [scan?, hkind] at hscan
      cases hscan
    | join => rfl
    | _ => exact if_pos hrows.symm

theorem rowBound?_of_bounded (h : ¬n.Unbounded) : n.rowBound? = some n.processed := by
  unfold rowBound? processed scan?
  cases hkind : n.kind with
  | scan scan =>
    refine if_neg fun hcondition ↦ h ?_
    rcases (Bool.or_eq_true _ _).mp hcondition with hreads | hunknown
    · exact .collection hkind (List.any_eq_true.mp hreads)
    · rw [Bool.and_eq_true, Bool.or_eq_true, Scan.lacksRowCount, beq_iff_eq,
        Bool.not_eq_true'] at hunknown
      exact .uncounted hkind hunknown.2 hunknown.1
  | join => exact absurd (.join hkind) h
  | _ => exact if_neg fun hrows ↦ h (.unknown (by rw [scan?, hkind]) hrows.symm)

theorem Tallied.neg_one_le_processed (h : n.Tallied) : -1 ≤ n.processed := by
  unfold processed
  split
  · exact h.inputRows
  · exact Int.le_trans h.inputRows (Int.le_max_left _ _)

end Node

namespace Visitor

variable {ns : List Node}

theorem pass_of_unbounded (h : ∃ n ∈ ns, n.Unbounded) (bound : Option Int) :
    (rowBoundVisitor.pass ns bound).1 = none := by
  induction ns generalizing bound with
  | nil =>
    obtain ⟨n, hn, _⟩ := h
    exact absurd hn List.not_mem_nil
  | cons n ns ih =>
    rw [pass, rowBoundVisitor]
    by_cases hn : n.Unbounded
    · rw [n.rowBound?_of_unbounded hn]
      rfl
    · rw [n.rowBound?_of_bounded hn]
      apply ih
      obtain ⟨m, hm, hunbounded⟩ := h
      rcases List.mem_cons.mp hm with rfl | hm
      · exact absurd hunbounded hn
      · exact ⟨m, hm, hunbounded⟩

theorem pass_of_bounded (h : ∀ n ∈ ns, ¬n.Unbounded) (bound : Int) :
    (rowBoundVisitor.pass ns (some bound)).1 =
      some ((ns.map Node.processed).foldl max bound) := by
  induction ns generalizing bound with
  | nil => rfl
  | cons n ns ih =>
    obtain ⟨hn, hns⟩ := List.forall_mem_cons.mp h
    rw [pass, rowBoundVisitor, n.rowBound?_of_bounded hn]
    exact ih hns _

end Visitor

theorem isGreatest_foldl_max (xs : List Int) (b : Int) :
    IsGreatest {x | x ∈ b :: xs} (xs.foldl max b) :=
  List.max?_eq_some_iff.mp List.max?_cons'

namespace Session

variable {s s' : Session} {root r : FragmentId} {roots : List FragmentId}

/-- The nodes that a walk over a plan passes are those of the fragments of its tree. -/
theorem Planned.exists_walk (h : s.Planned roots) (hr : r ∈ roots) :
    ∃ tree ns, s.fragmentTree r = .ok tree ∧ r ∈ tree ∧
      (∀ n, n ∈ ns ↔ n ∈ s.nodes ∧ n.fragment ∈ tree) ∧
      ∀ {σ : Type} (visit : Visitor σ) (st : σ),
        s.walk r visit st = .ok (visit.pass ns st).1 := by
  obtain ⟨x, hx, _⟩ := h.mem_roots.mp hr
  obtain ⟨tree, htree, -, -, hmem⟩ :=
    exists_fragmentTree h.coherent.linked h.coherent.acyclic hx
  have held (f : FragmentId) (hf : f ∈ tree) : ∃ l, s.executed f = .ok l ∧
      ∀ n, n ∈ l ↔ n ∈ s.nodes ∧ n.fragment = f := by
    obtain ⟨y, hy⟩ : ∃ y, s.fragment? f = some y := by
      rcases Relation.ReflTransGen.cases_tail ((hmem f).mp hf) with rfl | ⟨g, _, hparent⟩
      · exact ⟨x, hx⟩
      · obtain ⟨y, hy, _⟩ := fragment?_of_parent? hparent
        exact ⟨y, hy⟩
    obtain ⟨l, _, hl, _, hspec⟩ := h.coherent.exists_walk_own hy
    exact ⟨l, hl, hspec⟩
  obtain ⟨blocks, hblocks⟩ := Outcome.exists_mapM fun f hf ↦ (held f hf).imp fun _ ↦ And.left
  refine ⟨tree, blocks.flatten, htree, (hmem r).mpr .refl, fun n ↦ ?_,
    fun visit st ↦ walk_eq htree hblocks st⟩
  rw [Outcome.mem_flatten_of_mapM hblocks]
  constructor
  · rintro ⟨f, hf, l, hl, hn⟩
    obtain ⟨l', hl', hspec⟩ := held f hf
    obtain rfl := Except.ok.inj (hl.symm.trans hl')
    obtain ⟨hnode, rfl⟩ := (hspec n).mp hn
    exact ⟨hnode, hf⟩
  · rintro ⟨hnode, hf⟩
    obtain ⟨l, hl, hspec⟩ := held n.fragment hf
    exact ⟨n.fragment, hf, l, hl, (hspec n).mpr ⟨hnode, rfl⟩⟩

/-- The rows that the nodes of some fragments process. -/
def rowsOf (s : Session) (tree : List FragmentId) : Set Int :=
  {rows | ∃ n ∈ s.nodes, n.fragment ∈ tree ∧ n.processed = rows}

theorem Planned.rowBound_cases (h : s.Planned roots) (ht : s.Tallied) (hr : r ∈ roots) :
    ∃ tree, s.fragmentTree r = .ok tree ∧
      ((∃ n ∈ s.nodes, n.fragment ∈ tree ∧ n.Unbounded) → s.rowBound r = .ok (-1)) ∧
      ((∀ n ∈ s.nodes, n.fragment ∈ tree → ¬n.Unbounded) →
        ∃ rows, s.rowBound r = .ok rows ∧ IsGreatest (s.rowsOf tree) rows) := by
  obtain ⟨tree, ns, htree, hroot, hns, hwalk⟩ := h.exists_walk hr
  have hbound : s.rowBound r =
      .ok ((rowBoundVisitor.pass ns (some (-1))).1.getD (-1)) := by
    rw [rowBound, hwalk]
    rfl
  refine ⟨tree, htree, ?_, fun hbounded ↦ ?_⟩
  · rintro ⟨n, hn, hfragment, hunbounded⟩
    rw [hbound, Visitor.pass_of_unbounded ⟨n, (hns n).mpr ⟨hn, hfragment⟩, hunbounded⟩]
    rfl
  · have hall : ∀ n ∈ ns, ¬n.Unbounded := fun n hn ↦
      hbounded n ((hns n).mp hn).1 ((hns n).mp hn).2
    obtain ⟨hmem, hupper⟩ := isGreatest_foldl_max (ns.map Node.processed) (-1)
    refine ⟨_, by rw [hbound, Visitor.pass_of_bounded hall, Option.getD_some], ?_, ?_⟩
    · obtain ⟨x, hx, _⟩ := h.mem_roots.mp hr
      obtain ⟨n, hn, hfragment⟩ := h.coherent.root hx
      have hnode := Numbered.mem_of_get? hn
      have hle := hupper (List.mem_cons_of_mem _
        (List.mem_map_of_mem ((hns n).mpr ⟨hnode, hfragment ▸ hroot⟩)))
      rcases List.mem_cons.mp hmem with hmem | hmem
      · -- Not even the start of the walk is above what the root of the plan processes.
        have hnonneg := (ht n hnode).neg_one_le_processed
        exact ⟨n, hnode, hfragment ▸ hroot, Int.le_antisymm hle (hmem.trans_le hnonneg)⟩
      · obtain ⟨m, hm, heq⟩ := List.mem_map.mp hmem
        exact ⟨m, ((hns m).mp hm).1, ((hns m).mp hm).2, heq⟩
    · rintro _ ⟨m, hm, hfragment, rfl⟩
      exact hupper (List.mem_cons_of_mem _ (List.mem_map_of_mem ((hns m).mpr ⟨hm, hfragment⟩)))

variable {spec : PlanSpec} {catalog catalog' : Catalog} {cluster : Cluster} {options : Options}

/-- The row bound of each plan of a specification is -1 if some node of the fragments of its tree is
unbounded, and otherwise it is the largest number of rows that one of these nodes processes. -/
theorem rowBound_of_planParallel
    (hbuild : spec.build catalog cluster options = (.ok (root, s), catalog'))
    (hrun : s.planParallel root = .ok (roots, s')) (hr : r ∈ roots) :
    ∃ tree, s'.fragmentTree r = .ok tree ∧
      ((∃ n ∈ s'.nodes, n.fragment ∈ tree ∧ n.Unbounded) → s'.rowBound r = .ok (-1)) ∧
      ((∀ n ∈ s'.nodes, n.fragment ∈ tree → ¬n.Unbounded) →
        ∃ rows, s'.rowBound r = .ok rows ∧ IsGreatest (s'.rowsOf tree) rows) := by
  have hfrom := PlanSpec.buildFrom_of_build hbuild
  have hplanned := (PlanSpec.planned_of_planParallel hfrom hrun).1
  exact hplanned.rowBound_cases (PlanSpec.tallied_of_planParallel hfrom hrun) hr

/-- The join is in the first plan, and the second one sends a row to it. -/
theorem exists_rowBounds_broadcast : ∃ s s' : Session,
    PlanSpec.broadcast.build {} {} {} = (.ok (⟨1⟩, s), {}) ∧
      s.planParallel ⟨1⟩ = .ok ([⟨1⟩, ⟨2⟩], s') ∧
      [⟨1⟩, ⟨2⟩].mapM s'.fragmentTree = .ok [[⟨1⟩], [⟨2⟩, ⟨0⟩]] ∧
      (s'.nodes.filter (·.rowBound?.isNone)).map (·.fragment) = [⟨1⟩] := by
  have hplanned : PlanSpec.broadcast.planned? (fun roots s' ↦
      ((roots.mapM s'.fragmentTree).toOption,
        (s'.nodes.filter (·.rowBound?.isNone)).map (·.fragment))) =
      some (⟨1⟩, [⟨1⟩, ⟨2⟩], some [[⟨1⟩], [⟨2⟩, ⟨0⟩]], [⟨1⟩]) := by
    decide +kernel
  obtain ⟨s, s', hbuild, hrun, heq⟩ := PlanSpec.exists_of_planned?_of_nil rfl hplanned
  obtain ⟨htrees, hbounds⟩ := Prod.mk.inj heq
  exact ⟨s, s', hbuild, hrun, Outcome.toOption_eq_some.mp htrees, hbounds⟩

theorem rowBound_of_planParallel_broadcast : ∃ s s' : Session,
    PlanSpec.broadcast.build {} {} {} = (.ok (⟨1⟩, s), {}) ∧
      s.planParallel ⟨1⟩ = .ok ([⟨1⟩, ⟨2⟩], s') ∧ s'.rowBound ⟨1⟩ = .ok (-1) ∧
      ∃ rows, s'.rowBound ⟨2⟩ = .ok rows ∧ IsGreatest (s'.rowsOf [⟨2⟩, ⟨0⟩]) rows := by
  obtain ⟨s, s', hbuild, hrun, htrees, hbounds⟩ := exists_rowBounds_broadcast
  obtain ⟨htree, hrest⟩ := List.forall₂_cons.mp (Outcome.mapM_eq_ok.mp htrees)
  obtain ⟨htree', -⟩ := List.forall₂_cons.mp hrest
  obtain ⟨t, ht, hunbounded, _⟩ := rowBound_of_planParallel hbuild hrun List.mem_cons_self
  obtain ⟨t', ht', _, hbounded⟩ := rowBound_of_planParallel hbuild hrun
    (List.mem_cons_of_mem _ List.mem_cons_self)
  obtain rfl := Except.ok.inj (htree.symm.trans ht)
  obtain rfl := Except.ok.inj (htree'.symm.trans ht')
  refine ⟨s, s', hbuild, hrun, hunbounded ?_, hbounded fun n hn hfragment hunbounded ↦ ?_⟩
  · have hjoin : ⟨1⟩ ∈ (s'.nodes.filter (·.rowBound?.isNone)).map (·.fragment) := by
      rw [hbounds]
      exact List.mem_singleton_self _
    obtain ⟨n, hn, hfragment⟩ := List.mem_map.mp hjoin
    obtain ⟨hnode, hnone⟩ := List.mem_filter.mp hn
    refine ⟨n, hnode, List.mem_singleton.mpr hfragment, ?_⟩
    by_contra hbounded
    rw [n.rowBound?_of_bounded hbounded] at hnone
    cases hnone
  · have hnone : n.rowBound?.isNone = true := by
      rw [n.rowBound?_of_unbounded hunbounded]
      rfl
    have hone : n.fragment ∈ [⟨1⟩] :=
      hbounds ▸ List.mem_map_of_mem (List.mem_filter.mpr ⟨hn, hnone⟩)
    rw [List.mem_singleton.mp hone] at hfragment
    revert hfragment
    decide

end Session

end QueryPlanning
