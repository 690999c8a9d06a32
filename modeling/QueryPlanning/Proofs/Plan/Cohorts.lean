import QueryPlanning.Proofs.Plan.Dependencies

/-!
# Cohorts shared by the joins of a plan

The cohort of the plans that feed the joins of a fragment is handed down to the fragments below it.
It is allotted at the topmost fragments of a plan that have joins: fragments side by side do not
share theirs. So the joins of two fragments are supplied by plans of one cohort exactly if a
fragment with a join is above both of them.
-/

namespace QueryPlanning

namespace Session.Coherent

variable {s : Session}

/-- A fragment begins at or below the root of each fragment above it. -/
theorem below_of_inTree (h : s.Coherent) {f g : FragmentId} {x y : Fragment}
    (hx : s.fragment? f = some x) (hy : s.fragment? g = some y) (hin : s.InTree f g) :
    s.Below x.root y.root := by
  induction hin generalizing y with
  | refl =>
    obtain rfl := Option.some.inj (hx.symm.trans hy)
    exact .refl
  | tail _ hparent ih =>
    obtain ⟨z, hz⟩ := h.linked.parent hparent
    obtain ⟨w, hw, hwy, _⟩ := h.below_parent hy ((parent?_eq hy).symm.trans hparent)
    obtain rfl := Option.some.inj (hz.symm.trans hw)
    exact (ih hz).trans hwy

/-- Of two fragments in a tree, one that begins below the other is in the tree of that one. -/
theorem inTree_of_below (h : s.Coherent) {r f g : FragmentId} {x y : Fragment}
    (hx : s.fragment? f = some x) (hy : s.fragment? g = some y) (hrf : s.InTree r f)
    (hrg : s.InTree r g) (hbelow : s.Below x.root y.root) : s.InTree f g := by
  induction hrg generalizing y with
  | refl =>
    have hroot := h.tree.antisymm hbelow (h.below_of_inTree hy hx hrf)
    rw [h.eq_of_root hx hy hroot]
    exact .refl
  | tail _ hparent ih =>
    by_cases hroot : x.root = y.root
    · rw [h.eq_of_root hx hy hroot]
      exact .refl
    · obtain ⟨e, n, hn, _, rfl, hchild⟩ :=
        h.exists_exchange hy ((parent?_eq hy).symm.trans hparent)
      obtain ⟨z, hz⟩ := h.linked.parent hparent
      have hxz := h.root_below hx hn hz (h.tree.below_parent hbelow hroot hchild)
      exact (ih hz hxz).tail hparent

end Session.Coherent

namespace Splitting.Complete

open Session

variable {st : Splitting} {top : NodeId}

/-- A fragment or one below it executes a node exactly if the node is below the fragment's root and
in the same plan. -/
theorem executes_iff_below (h : st.Complete top) {f : FragmentId} {i : NodeId} {n : Node}
    {u v : Fragment} (hu : st.session.fragment? f = some u)
    (hn : st.session.node? i = some n) (hv : st.session.fragment? n.fragment = some v) :
    st.session.Executes f i ↔ u.plan = v.plan ∧ st.session.Below u.root i := by
  have hc := h.progress.coherent
  rw [h.executes_iff hu hn]
  constructor
  · intro hin
    obtain ⟨hplan, _⟩ := h.progress.plan_of_inTree (fun _ _ ↦ h.below) h.settled hu hv hin
    exact ⟨hplan.symm, (hc.below_of_inTree hu hv hin).trans (hc.below_root hn hv)⟩
  · rintro ⟨hplan, hbelow⟩
    obtain ⟨r, _, _, _, hru, hrv⟩ := h.exists_common_root hu hv hplan
    exact hc.inTree_of_below hu hv hru hrv (hc.root_below hu hn hv hbelow)

end Splitting.Complete

namespace PlanSpec

/-- The root of the plan for a specification, the roots of the plans that it is split into, and the
session after the split. -/
def split? (spec : PlanSpec) : Option (FragmentId × List FragmentId × Session) := do
  let (root, s) ← (spec.buildFrom {} {} {}).toOption
  let (roots, s') := s.createPlans root
  return (root, ← roots.toOption, s')

theorem exists_of_split? {spec : PlanSpec} {root : FragmentId} {roots : List FragmentId}
    {s' : Session} (h : spec.split? = some (root, roots, s')) :
    ∃ s : Session, s.WellFormed root ∧ s.createPlans root = (.ok roots, s') := by
  obtain ⟨⟨root', s⟩, hs, h⟩ := Option.bind_eq_some_iff.mp h
  obtain ⟨roots', hroots, h⟩ := Option.bind_eq_some_iff.mp h
  obtain ⟨rfl, heq⟩ := Prod.mk.inj (Option.some.inj h)
  obtain ⟨rfl, rfl⟩ := Prod.mk.inj heq
  exact ⟨s, wellFormed_of_buildFrom (Outcome.toOption_eq_some.mp hs),
    Prod.ext (Outcome.toOption_eq_some.mp hroots) rfl⟩

/-- The cohorts of the plans after a split, and whether all joins are in the first plan. -/
def cohorts? (spec : PlanSpec) : Option (FragmentId × List FragmentId × List (Option CohortId) ×
    Bool) :=
  spec.split?.map fun (root, roots, s) ↦
    (root, roots, roots.map fun r ↦ (s.fragment? r).map (·.cohort), s.nodes.all fun n ↦
      n.join?.isNone || (s.fragment? n.fragment).map (·.plan) = some ⟨0⟩)

end PlanSpec

namespace Session

variable {s s' : Session} {root : FragmentId} {roots : List FragmentId}

/-- Two joins are supplied by plans of one cohort if and only if some fragment with a join that has
a table, together with the fragments below it, executes both of them. -/
theorem createPlans_shares_cohorts (h : s.WellFormed root)
    (hrun : s.createPlans root = (.ok roots, s')) {f g : FragmentId} (hf : f ∈ roots.tail)
    (hg : g ∈ roots.tail) {x y : Fragment} (hx : s'.fragment? f = some x)
    (hy : s'.fragment? g = some y) {i j : NodeId} (hi : s'.Fills f i) (hj : s'.Fills g j) :
    x.cohort = y.cohort ↔ ∃ l m join, s'.node? l = some m ∧ m.kind = .join join ∧
      join.table.isValid = true ∧ s'.Executes m.fragment i ∧ s'.Executes m.fragment j := by
  obtain ⟨st, top, rfl, rfl, hc⟩ := h.complete hrun
  obtain ⟨M, hstaged⟩ := hc.staged
  have supplied {f : FragmentId} (hf : f ∈ st.roots.tail) {x : Fragment}
      (hx : st.session.fragment? f = some x) {i : NodeId} (hi : st.session.Fills f i) :
      ∃ n u, st.session.node? i = some n ∧ st.session.fragment? n.fragment = some u ∧
        st.session.Supplied i u.stem x.stem := by
    obtain ⟨k, hk⟩ := List.mem_iff_getElem?.mp hf
    rw [List.getElem?_tail] at hk
    obtain ⟨x', i', n, u, hx', hi', hn, hu, hs⟩ := hc.exists_fills hk
    obtain rfl := Option.some.inj (hx.symm.trans hx')
    obtain rfl := hc.fills_unique hi hi'
    exact ⟨n, u, hn, hu, hs⟩
  obtain ⟨n, u, hn, hu, hsi⟩ := supplied hf hx hi
  obtain ⟨n', u', hn', hu', hsj⟩ := supplied hg hy hj
  constructor
  · intro hcohort
    rcases hstaged.common (hc.below hn) (hc.below hn') hsi hsj hcohort with
      hnone | ⟨l, w, t, _, hsl, _, hplan, hplan', hbelow, hbelow'⟩
    · cases hnone
    · obtain ⟨m, join, z, _, _, hm, hkind, hvalid, hz, rfl, _⟩ := hsl
      exact ⟨l, m, join, hm, hkind, hvalid,
        (hc.executes_iff_below hz hn hu).mpr ⟨hplan, hbelow⟩,
        (hc.executes_iff_below hz hn' hu').mpr ⟨hplan', hbelow'⟩⟩
  · rintro ⟨l, m, join, hm, hkind, hvalid, hl, hl'⟩
    obtain ⟨z, t, hz, hsl⟩ := hc.progress.exists_supplied hm hkind hvalid
    have shared {i : NodeId} {n : Node} {u x : Fragment} (hn : st.session.node? i = some n)
        (hu : st.session.fragment? n.fragment = some u) (hs : st.session.Supplied i u.stem x.stem)
        (hl : st.session.Executes m.fragment i) : t.cohort = x.cohort := by
      obtain ⟨hplan, hbelow⟩ := (hc.executes_iff_below hz hn hu).mp hl
      have hcohort : t.cohort = x.stem.cohort :=
        hstaged.shared (hc.below hm) (hc.below hn) hsl hs hplan hbelow
      exact hcohort
    exact (shared hn hu hsi hl).symm.trans (shared hn' hu' hsj hl')

theorem createPlans_shares_cohorts_bushy : ∃ (s s' : Session) (i j : NodeId),
    s.WellFormed ⟨0⟩ ∧ s.createPlans ⟨0⟩ = (.ok [⟨0⟩, ⟨1⟩, ⟨2⟩, ⟨3⟩], s') ∧ s'.Fills ⟨1⟩ i ∧
    s'.Fills ⟨3⟩ j ∧ ∃ l m join, s'.node? l = some m ∧ m.kind = .join join ∧
      join.table.isValid = true ∧ s'.Executes m.fragment i ∧ s'.Executes m.fragment j := by
  have hcohorts : PlanSpec.bushy.cohorts? = some (⟨0⟩, [⟨0⟩, ⟨1⟩, ⟨2⟩, ⟨3⟩],
      [some ⟨0⟩, some ⟨1⟩, some ⟨2⟩, some ⟨1⟩], false) := by decide +kernel
  obtain ⟨⟨root, roots, s'⟩, hsplit, heq⟩ := Option.map_eq_some_iff.mp hcohorts
  simp only [Prod.mk.injEq] at heq
  obtain ⟨rfl, rfl, hcohort, _⟩ := heq
  obtain ⟨s, h, hrun⟩ := PlanSpec.exists_of_split? hsplit
  obtain ⟨st, top, rfl, hroots, hc⟩ := h.complete hrun
  obtain ⟨x, i, _, _, hx, hi, _⟩ := hc.exists_fills (k := 0) (congrArg (·[1]?) hroots)
  obtain ⟨y, j, _, _, hy, hj, _⟩ := hc.exists_fills (k := 2) (congrArg (·[3]?) hroots)
  simp only [List.map_cons, hx, hy, Option.map_some, List.cons.injEq, Option.some.injEq] at hcohort
  have hsame : x.cohort = y.cohort := hcohort.2.1.trans hcohort.2.2.2.1.symm
  exact ⟨s, st.session, i, j, h, hrun, hi, hj,
    (createPlans_shares_cohorts h hrun (by decide) (by decide) hx hy hi hj).mp hsame⟩

end Session

/-- A union of what two other fragments send to it, each from a join. -/
def PlanSpec.forked : PlanSpec where
  root := .union [side, side]
where
  side : NodeSpec :=
    .exchange .unpartitioned .unpartitioned
      (.join { algorithm := .nestedLoop } .singularRow .singularRow)

/-- Joins of one plan that are in fragments side by side can be supplied by plans of different
cohorts. -/
theorem Session.exists_cohorts_differ : ∃ (s s' : Session) (root : FragmentId)
    (roots : List FragmentId) (f g : FragmentId) (x y u v : Fragment) (i j : NodeId) (n m : Node),
    s.WellFormed root ∧ s.createPlans root = (.ok roots, s') ∧ f ∈ roots.tail ∧ g ∈ roots.tail ∧
    s'.fragment? f = some x ∧ s'.fragment? g = some y ∧ s'.Fills f i ∧ s'.Fills g j ∧
    s'.node? i = some n ∧ s'.fragment? n.fragment = some u ∧ s'.node? j = some m ∧
    s'.fragment? m.fragment = some v ∧ u.plan = v.plan ∧ x.cohort ≠ y.cohort := by
  have hcohorts : PlanSpec.forked.cohorts? =
      some (⟨2⟩, [⟨2⟩, ⟨3⟩, ⟨4⟩], [some ⟨0⟩, some ⟨1⟩, some ⟨2⟩], true) := by decide +kernel
  obtain ⟨⟨root, roots, s'⟩, hsplit, heq⟩ := Option.map_eq_some_iff.mp hcohorts
  simp only [Prod.mk.injEq] at heq
  obtain ⟨rfl, rfl, hcohort, hjoins⟩ := heq
  obtain ⟨s, h, hrun⟩ := PlanSpec.exists_of_split? hsplit
  obtain ⟨st, top, rfl, hroots, hc⟩ := h.complete hrun
  simp only [List.map_cons, List.map_nil, List.cons.injEq, Option.map_eq_some_iff] at hcohort
  obtain ⟨_, ⟨x, hx, hxc⟩, ⟨y, hy, hyc⟩, _⟩ := hcohort
  -- Both joins are in the first plan.
  have first {k : Nat} {f : FragmentId} (hf : st.roots[k + 1]? = some f) :
      ∃ i n u, st.session.Fills f i ∧ st.session.node? i = some n ∧
        st.session.fragment? n.fragment = some u ∧ u.plan = ⟨0⟩ := by
    obtain ⟨_, i, n, u, _, hi, hn, hu, _⟩ := hc.exists_fills hf
    refine ⟨i, n, u, hi, hn, hu, ?_⟩
    obtain ⟨_, n', join, _, _, _, hn', hkind, _⟩ := hi
    obtain rfl := Option.some.inj (hn.symm.trans hn')
    have hplan := List.all_eq_true.mp hjoins n (Numbered.mem_of_get? hn)
    rw [Node.join?_eq_some.mpr hkind, hu] at hplan
    exact Option.some.inj (of_decide_eq_true hplan)
  obtain ⟨i, n, u, hi, hn, hu, hplan⟩ := first (k := 0) (congrArg (·[1]?) hroots)
  obtain ⟨j, m, v, hj, hm, hv, hplan'⟩ := first (k := 1) (congrArg (·[2]?) hroots)
  refine ⟨s, st.session, ⟨2⟩, _, ⟨3⟩, ⟨4⟩, x, y, u, v, i, j, n, m, h, hrun, by decide, by decide,
    hx, hy, hi, hj, hn, hu, hm, hv, hplan.trans hplan'.symm, ?_⟩
  rw [hxc, hyc]
  decide

end QueryPlanning
