import QueryPlanning.Proofs.Plan.ParallelPlans

/-!
# Dependencies between plans

A plan that was split off fills the table of one join, and the plan that executes this join depends
on it. Plans and cohorts are numbered in such a way that a plan comes after the plan that depends on
it and is in a later cohort. So the dependencies form a tree with the first plan at its root, and
the plans of one cohort, which feed the same plan, can run at the same time.
-/

namespace QueryPlanning

namespace Splitting

/-- The state in which a split ends. -/
structure Complete (st : Splitting) (top : NodeId) : Prop where
  progress : st.Progress top
  below {i : NodeId} {n : Node} : st.session.node? i = some n → st.session.Below top i
  settled : st.session.SettledBelow top
  staged : ∃ m, st.session.Staged ⟨1, 1⟩ m ⟨0⟩ none (st.session.Below top)

end Splitting

namespace Session

variable {s s' : Session} {root : FragmentId} {roots : List FragmentId}

theorem WellFormed.complete (h : s.WellFormed root)
    (hrun : s.createPlans root = (.ok roots, s')) :
    ∃ (st : Splitting) (top : NodeId), st.session = s' ∧ st.roots = roots ∧ st.Complete top := by
  have hsplit := h.split hrun
  obtain ⟨x, hx, _⟩ := h.destination.mp rfl
  obtain ⟨st, rfl, rfl, hp, hsettled⟩ := hsplit.progress hx
  refine ⟨st, x.root, rfl, rfl, hp, fun hn ↦ ?_, hsettled, hsplit.staged hx⟩
  obtain ⟨n', hn', _⟩ := exists_node?_of_plan hsplit.plan.symm hn
  rw [below_of_plan hsplit.plan]
  exact h.below hx hn'

/-- The rows of the fragment go to the table of the join. -/
def Fills (s : Session) (f : FragmentId) (j : NodeId) : Prop :=
  ∃ x n join keys memory, s.fragment? f = some x ∧ s.node? j = some n ∧ n.kind = .join join ∧
    join.table.isValid = true ∧ x.sink = some ⟨f, .joinBuild join.table keys, memory⟩

/-- The fragment, or one below it in its tree, executes the node. The root of a plan executes all
nodes of the plan. -/
def Executes (s : Session) (r : FragmentId) (i : NodeId) : Prop :=
  ∃ tree n, s.fragmentTree r = .ok tree ∧ s.node? i = some n ∧ n.fragment ∈ tree

/-- The plan at position `p` has a join whose table is filled by the plan at position `i`. -/
def Requires (s : Session) (roots : List FragmentId) (p i : Nat) : Prop :=
  0 < i ∧ ∃ r r' j, roots[p]? = some r ∧ roots[i]? = some r' ∧ s.Executes r j ∧ s.Fills r' j

end Session

namespace Splitting.Complete

open Session

variable {st : Splitting} {top : NodeId}

/-- The fragments at and below a fragment execute the nodes that are in them. -/
theorem executes_iff (h : st.Complete top) {r : FragmentId} {x : Fragment}
    (hx : st.session.fragment? r = some x) {i : NodeId} {n : Node}
    (hn : st.session.node? i = some n) :
    st.session.Executes r i ↔ st.session.InTree r n.fragment := by
  obtain ⟨tree, htree, _, _, hmem⟩ :=
    exists_fragmentTree h.progress.coherent.linked h.progress.coherent.acyclic hx
  rw [← hmem]
  constructor
  · rintro ⟨tree', n', htree', hn', hin⟩
    obtain rfl := Except.ok.inj (htree.symm.trans htree')
    obtain rfl := Option.some.inj (hn.symm.trans hn')
    exact hin
  · intro hin
    exact ⟨tree, n, htree, hn, hin⟩

/-- Every fragment belongs to the plan and the cohort of one of the roots. -/
theorem exists_root (h : st.Complete top) {f : FragmentId} {y : Fragment}
    (hy : st.session.fragment? f = some y) :
    ∃ p r x, st.roots[p]? = some r ∧ st.session.fragment? r = some x ∧ st.session.InTree r f ∧
      y.plan = .ofNat p ∧ y.cohort = x.cohort := by
  obtain ⟨r, hr, hin⟩ := h.progress.planned.exists_inTree hy
  obtain ⟨p, hp⟩ := List.mem_iff_getElem?.mp hr
  obtain ⟨x, hx, _⟩ := h.progress.mem_roots.mp hr
  obtain ⟨hplan, hcohort⟩ := h.progress.plan_of_inTree (fun _ _ ↦ h.below) h.settled hx hy hin
  exact ⟨p, r, x, hp, hx, hin, hplan.trans (h.progress.plan hp hx).1, hcohort⟩

/-- Fragments with the number of one plan are in one tree. -/
theorem exists_common_root (h : st.Complete top) {f g : FragmentId} {x y : Fragment}
    (hx : st.session.fragment? f = some x) (hy : st.session.fragment? g = some y)
    (hplan : x.plan = y.plan) :
    ∃ r ∈ st.roots, ∃ z, st.session.fragment? r = some z ∧ st.session.InTree r f ∧
      st.session.InTree r g := by
  obtain ⟨p, r, z, hr, hz, hf, hp, _⟩ := h.exists_root hx
  obtain ⟨q, t, _, ht, _, hg, hq, _⟩ := h.exists_root hy
  obtain rfl : p = q := Numbered.ofNat_injective (hp.symm.trans (hplan.trans hq))
  obtain rfl := Option.some.inj (hr.symm.trans ht)
  exact ⟨r, List.mem_of_getElem? hr, z, hz, hf, hg⟩

/-- A plan that was split off begins at the build side of the join that it supplies, and stores the
rows by the keys of the join. -/
theorem exists_supplied (h : st.Complete top) {k : Nat} {f : FragmentId}
    (hf : st.roots[k + 1]? = some f) :
    ∃ x j n join keys y, st.session.fragment? f = some x ∧ st.session.node? j = some n ∧
      n.kind = .join join ∧ join.table = .ofNat k ∧ n.children[1]? = some x.root ∧
      join.buildKeys = .ok keys ∧
      x.sink = some { fragment := f, kind := .joinBuild join.table keys } ∧
      st.session.fragment? n.fragment = some y ∧ st.session.Supplied j y.stem x.stem := by
  have hp := h.progress
  obtain ⟨x, j, n, join, keys, hx, hn, hkind, htable, hbuild, hkeys, hsink⟩ := hp.build hf
  have hvalid : join.table.isValid = true := by
    rw [htable]
    exact Id.isValid_ofNat k
  obtain ⟨y, hy, _⟩ := hp.coherent.connected hn (hp.owned hn)
  refine ⟨x, j, n, join, keys, y, hx, hn, hkind, htable, hbuild, hkeys, hsink, hy, ?_⟩
  exact ⟨n, join, y, f, x, hn, hkind, hvalid, hy, rfl, hx, rfl, (build_iff hn).mpr hbuild⟩

theorem exists_fills (h : st.Complete top) {k : Nat} {f : FragmentId}
    (hf : st.roots[k + 1]? = some f) :
    ∃ x j n y, st.session.fragment? f = some x ∧ st.session.Fills f j ∧
      st.session.node? j = some n ∧ st.session.fragment? n.fragment = some y ∧
      st.session.Supplied j y.stem x.stem := by
  obtain ⟨x, j, n, join, keys, y, hx, hn, hkind, htable, _, _, hsink, hy, hs⟩ :=
    h.exists_supplied hf
  have hvalid : join.table.isValid = true := by
    rw [htable]
    exact Id.isValid_ofNat k
  exact ⟨x, j, n, y, hx, ⟨x, n, join, keys, -1, hx, hn, hkind, hvalid, hsink⟩, hn, hy, hs⟩

/-- Two joins do not have the same table. -/
theorem table_injective (h : st.Complete top) {j j' : NodeId} {n n' : Node} {join join' : Join}
    (hn : st.session.node? j = some n) (hkind : n.kind = .join join)
    (hn' : st.session.node? j' = some n') (hkind' : n'.kind = .join join')
    (hvalid : join.table.isValid = true) (htable : join.table = join'.table) : j = j' := by
  have hp := h.progress
  obtain ⟨k, f, x, hk, hf, hx, hbuild⟩ := hp.tabled hn hkind hvalid
  obtain ⟨k', f', x', hk', hf', hx', hbuild'⟩ := hp.tabled hn' hkind' (htable ▸ hvalid)
  obtain rfl : k = k' := Numbered.ofNat_injective (hk.symm.trans (htable.trans hk'))
  obtain rfl := Option.some.inj (hf.symm.trans hf')
  obtain rfl := Option.some.inj (hx.symm.trans hx')
  exact hp.coherent.tree.unique ⟨n, hn, List.mem_of_getElem? hbuild⟩
    ⟨n', hn', List.mem_of_getElem? hbuild'⟩

/-- A fragment fills the table of one join only. -/
theorem fills_unique (h : st.Complete top) {f : FragmentId} {j j' : NodeId}
    (hj : st.session.Fills f j) (hj' : st.session.Fills f j') : j = j' := by
  obtain ⟨x, n, join, keys, memory, hx, hn, hkind, hvalid, hsink⟩ := hj
  obtain ⟨x', n', join', keys', memory', hx', hn', hkind', hvalid', hsink'⟩ := hj'
  obtain rfl := Option.some.inj (hx.symm.trans hx')
  have htable : join.table = join'.table := by
    rw [hsink, Option.some.injEq, Sink.mk.injEq, SinkKind.joinBuild.injEq] at hsink'
    exact hsink'.2.1.1
  exact h.table_injective hn hkind hn' hkind' hvalid htable

/-- The join that a plan fills the table of is executed by an earlier plan of an earlier cohort. -/
theorem exists_reader (h : st.Complete top) {k : Nat} {f : FragmentId}
    (hf : st.roots[k + 1]? = some f) {j : NodeId} (hj : st.session.Fills f j) :
    ∃ p r x y, p < k + 1 ∧ st.roots[p]? = some r ∧ st.session.Executes r j ∧
      st.session.fragment? r = some y ∧ st.session.fragment? f = some x ∧
      y.cohort.val < x.cohort.val := by
  obtain ⟨m, hstaged⟩ := h.staged
  obtain ⟨x, j', n, y, hx, hj', hn, hy, hs⟩ := h.exists_fills hf
  obtain rfl := h.fills_unique hj hj'
  have htimely := hstaged.timely (h.below hn) hs
  obtain ⟨p, r, z, hr, hz, hin, hplan, hcohort⟩ := h.exists_root hy
  have hxplan := (h.progress.plan hf hx).1
  have hexecutes := (h.executes_iff hz hn).mpr hin
  refine ⟨p, r, x, z, ?_, hr, hexecutes, hz, hx, ?_⟩
  · have hlt : y.plan.val < x.plan.val := htimely.plan
    rw [hplan, hxplan] at hlt
    exact Int.ofNat_lt.mp hlt
  · rw [← hcohort]
    exact htimely.cohort

/-- A node is executed by one plan only. -/
theorem executes_unique (h : st.Complete top) {p q : Nat} {r t : FragmentId}
    (hr : st.roots[p]? = some r) (ht : st.roots[q]? = some t) {j : NodeId}
    (hj : st.session.Executes r j) (hj' : st.session.Executes t j) : p = q := by
  have hj₀ := hj
  obtain ⟨_, n, _, hn, _⟩ := hj₀
  have hp := h.progress
  have hr' := List.mem_of_getElem? hr
  have ht' := List.mem_of_getElem? ht
  obtain ⟨_, hx, _⟩ := hp.mem_roots.mp hr'
  obtain ⟨_, hy, _⟩ := hp.mem_roots.mp ht'
  rw [h.executes_iff hx hn] at hj
  rw [h.executes_iff hy hn] at hj'
  obtain rfl : r = t := by
    by_contra hne
    exact hp.planned.roots_disjoint hr' ht' hne hj hj'
  exact (List.getElem?_inj (List.getElem?_eq_some_iff.mp hr).1 hp.nodup).mp (hr.trans ht.symm)

/-- Joins that are supplied by plans of one cohort are executed by one plan. -/
theorem executes_together (h : st.Complete top) {k l : Nat} {f g : FragmentId} {x y : Fragment}
    (hf : st.roots[k + 1]? = some f) (hg : st.roots[l + 1]? = some g)
    (hx : st.session.fragment? f = some x) (hy : st.session.fragment? g = some y)
    (hcohort : x.cohort = y.cohort) {i j : NodeId} (hi : st.session.Fills f i)
    (hj : st.session.Fills g j) :
    ∃ r ∈ st.roots, st.session.Executes r i ∧ st.session.Executes r j := by
  obtain ⟨m, hstaged⟩ := h.staged
  obtain ⟨x', i', n, u, hx', hi', hn, hu, hsi⟩ := h.exists_fills hf
  obtain ⟨y', j', n', v, hy', hj', hn', hv, hsj⟩ := h.exists_fills hg
  obtain rfl := h.fills_unique hi hi'
  obtain rfl := h.fills_unique hj hj'
  obtain rfl := Option.some.inj (hx.symm.trans hx')
  obtain rfl := Option.some.inj (hy.symm.trans hy')
  have hplan : u.plan = v.plan := by
    rcases hstaged.common (h.below hn) (h.below hn') hsi hsj hcohort with
      hnone | ⟨_, _, _, _, _, _, hu₀, hv₀, _⟩
    · cases hnone
    · exact hu₀.symm.trans hv₀
  obtain ⟨r, hr, z, hz, hin, hin'⟩ := h.exists_common_root hu hv hplan
  exact ⟨r, hr, (h.executes_iff hz hn).mpr hin, (h.executes_iff hz hn').mpr hin'⟩

/-- The plans that a plan requires come after it and are in later cohorts. -/
theorem lt_of_requires (h : st.Complete top) {p i : Nat} (hpi : st.session.Requires st.roots p i) :
    p < i ∧ ∃ r t x y, st.roots[p]? = some r ∧ st.roots[i]? = some t ∧
      st.session.fragment? r = some y ∧ st.session.fragment? t = some x ∧
      y.cohort.val < x.cohort.val := by
  obtain ⟨hi, r, t, j, hr, ht, hexecutes, hfills⟩ := hpi
  obtain ⟨k, rfl⟩ := Nat.exists_eq_succ_of_ne_zero (Nat.ne_of_gt hi)
  obtain ⟨q, r', x, y, hlt, hr', hexecutes', hy, hx, hcohort⟩ := h.exists_reader ht hfills
  obtain rfl := h.executes_unique hr hr' hexecutes hexecutes'
  obtain rfl := Option.some.inj (hr.symm.trans hr')
  exact ⟨hlt, r, t, x, y, hr, ht, hy, hx, hcohort⟩

/-- Exactly one plan requires a plan that was split off. -/
theorem existsUnique_requires (h : st.Complete top) {i : Nat} (hi : 0 < i)
    (hlt : i < st.roots.length) : ∃! p, st.session.Requires st.roots p i := by
  obtain ⟨k, rfl⟩ := Nat.exists_eq_succ_of_ne_zero (Nat.ne_of_gt hi)
  have ht := List.getElem?_eq_getElem hlt
  obtain ⟨_, j, _, _, _, hfills, _⟩ := h.exists_fills ht
  obtain ⟨p, r, _, _, _, hr, hexecutes, _⟩ := h.exists_reader ht hfills
  refine ⟨p, ⟨hi, r, _, j, hr, ht, hexecutes, hfills⟩, ?_⟩
  rintro q ⟨_, r', t', j', hr', ht', hexecutes', hfills'⟩
  obtain rfl := Option.some.inj (ht.symm.trans ht')
  obtain rfl := h.fills_unique hfills hfills'
  exact h.executes_unique hr' hr hexecutes' hexecutes

/-- All plans are required by the first one, directly or through others. -/
theorem requires_of_first (h : st.Complete top) {i : Nat} (hlt : i < st.roots.length) :
    Relation.ReflTransGen (st.session.Requires st.roots) 0 i := by
  induction i using Nat.strongRecOn with
  | ind i ih =>
    rcases Nat.eq_zero_or_pos i with rfl | hi
    · exact .refl
    · obtain ⟨p, hp, _⟩ := h.existsUnique_requires hi hlt
      obtain ⟨hpi, _⟩ := h.lt_of_requires hp
      exact (ih p hpi (Nat.lt_trans hpi hlt)).tail hp

end Splitting.Complete

namespace Session

variable {s s' : Session} {root : FragmentId} {roots : List FragmentId}

/-- A plan that was split off fills the table of one join, which is executed by an earlier plan of
an earlier cohort; and plans of one cohort fill tables of joins of one plan. So the plans form a
tree in which every plan requires later plans of later cohorts, with the first plan at its root. -/
theorem createPlans_orders_dependencies (h : s.WellFormed root)
    (hrun : s.createPlans root = (.ok roots, s')) :
    (∀ i f, 0 < i → roots[i]? = some f → (∃! j, s'.Fills f j) ∧
      ∀ j, s'.Fills f j → ∃ p r x y, p < i ∧ roots[p]? = some r ∧ s'.Executes r j ∧
        s'.fragment? r = some y ∧ s'.fragment? f = some x ∧ y.cohort.val < x.cohort.val) ∧
    (∀ i k f g x y j l, 0 < i → 0 < k → roots[i]? = some f → roots[k]? = some g →
      s'.fragment? f = some x → s'.fragment? g = some y → x.cohort = y.cohort →
      s'.Fills f j → s'.Fills g l → ∃ r ∈ roots, s'.Executes r j ∧ s'.Executes r l) ∧
    (∀ p i, s'.Requires roots p i → p < i ∧ ∃ r f x y, roots[p]? = some r ∧ roots[i]? = some f ∧
      s'.fragment? r = some y ∧ s'.fragment? f = some x ∧ y.cohort.val < x.cohort.val) ∧
    (∀ i, 0 < i → i < roots.length → ∃! p, s'.Requires roots p i) ∧
    ∀ i, i < roots.length → Relation.ReflTransGen (s'.Requires roots) 0 i := by
  obtain ⟨st, top, rfl, rfl, hc⟩ := h.complete hrun
  refine ⟨?_, ?_, fun p i ↦ hc.lt_of_requires, fun i ↦ hc.existsUnique_requires,
    fun i ↦ hc.requires_of_first⟩
  · intro i f hi hf
    obtain ⟨k, rfl⟩ := Nat.exists_eq_succ_of_ne_zero (Nat.ne_of_gt hi)
    obtain ⟨_, j, _, _, _, hj, _⟩ := hc.exists_fills hf
    exact ⟨⟨j, hj, fun j' hj' ↦ hc.fills_unique hj' hj⟩, fun j ↦ hc.exists_reader hf⟩
  · intro i k f g x y j l hi hk hf hg hx hy hcohort
    obtain ⟨i, rfl⟩ := Nat.exists_eq_succ_of_ne_zero (Nat.ne_of_gt hi)
    obtain ⟨k, rfl⟩ := Nat.exists_eq_succ_of_ne_zero (Nat.ne_of_gt hk)
    exact hc.executes_together hf hg hx hy hcohort

end Session

namespace PlanSpec

/-- A join with another join on either side. -/
def bushy : PlanSpec where
  root := .join {} (.join {} .singularRow .singularRow) (.join {} .singularRow .singularRow)

theorem exists_plans_bushy : ∃ s s' : Session,
    s.WellFormed ⟨0⟩ ∧ s.createPlans ⟨0⟩ = (.ok [⟨0⟩, ⟨1⟩, ⟨2⟩, ⟨3⟩], s') := by
  have hroots : bushy.roots? = some (⟨0⟩, [⟨0⟩, ⟨1⟩, ⟨2⟩, ⟨3⟩]) := by decide +kernel
  exact exists_plans hroots

end PlanSpec

theorem Session.createPlans_orders_dependencies_bushy : ∃ s s' : Session, s.WellFormed ⟨0⟩ ∧
    s.createPlans ⟨0⟩ = (.ok [⟨0⟩, ⟨1⟩, ⟨2⟩, ⟨3⟩], s') ∧ (∃! j, s'.Fills ⟨2⟩ j) ∧
    (∃! p, s'.Requires [⟨0⟩, ⟨1⟩, ⟨2⟩, ⟨3⟩] p 2) ∧
    Relation.ReflTransGen (s'.Requires [⟨0⟩, ⟨1⟩, ⟨2⟩, ⟨3⟩]) 0 3 := by
  obtain ⟨s, s', h, hrun⟩ := PlanSpec.exists_plans_bushy
  obtain ⟨hfills, _, _, hunique, hfirst⟩ := createPlans_orders_dependencies h hrun
  exact ⟨s, s', h, hrun, (hfills 2 ⟨2⟩ (by decide) rfl).1, hunique 2 (by decide) (by decide),
    hfirst 3 (by decide)⟩

end QueryPlanning
