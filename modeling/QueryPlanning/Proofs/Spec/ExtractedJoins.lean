import Mathlib.Data.List.FinRange
import QueryPlanning.Proofs.Plan.Dependencies
import QueryPlanning.Proofs.Spec.NodeInvariants

/-!
# The joins that are extracted

Of the joins of a plan that comes from a specification, those that a subplan evaluates for each row
stay where they are, down to the exchanges. Each other one gets a table, and the plan that fills it
begins at the build side of the join.
-/

namespace QueryPlanning

namespace Session

variable {s s' : Session}

/-- A subplan evaluates the node for each row: the node is below the subplan's second input, with no
exchange in between. -/
def Evaluated (s : Session) (i : NodeId) : Prop :=
  ∃ p n b, s.node? p = some n ∧ n.kind = .subplan ∧ n.children[1]? = some b ∧
    s.Reach Node.inner b i

/-- Where joins and subplans have two inputs, what is skipped is what a subplan evaluates. -/
theorem Binary.skipped_iff (h : s.Binary) {i : NodeId} : s.Skipped i ↔ s.Evaluated i := by
  have hbinary {p : NodeId} {n : Node} (hn : s.node? p = some n) : n.Binary :=
    h n (Numbered.mem_of_get? hn)
  constructor
  · rintro ⟨p, b, ⟨n, hn, hb⟩, hreach⟩
    have hn₂ := hbinary hn
    unfold Node.skipped at hb
    unfold Node.Binary at hn₂
    cases hkind : n.kind <;> rw [hkind] at hb hn₂
    case join =>
      rw [List.drop_of_length_le (Nat.le_of_eq hn₂)] at hb
      cases hb
    case subplan =>
      obtain ⟨k, hk⟩ := List.mem_iff_getElem?.mp hb
      rw [List.getElem?_drop] at hk
      have hlt := (List.getElem?_eq_some_iff.mp hk).1
      obtain rfl : k = 0 := by
        rw [hn₂] at hlt
        omega
      exact ⟨p, n, b, hn, hkind, hk, hreach⟩
    all_goals cases hb
  · rintro ⟨p, n, b, hn, hkind, hb, hreach⟩
    refine ⟨p, b, ⟨n, hn, ?_⟩, hreach⟩
    unfold Node.skipped
    rw [hkind]
    refine List.mem_of_getElem? (i := 0) ?_
    rw [List.getElem?_drop]
    exact hb

end Session

/-- A specification without tables leaves the catalog as it is. -/
theorem PlanSpec.build_of_nil {spec : PlanSpec} (h : spec.tables = []) (catalog : Catalog)
    (cluster : Cluster) (options : Options) :
    spec.build catalog cluster options = (spec.buildFrom catalog cluster options, catalog) := by
  rw [build, h]
  rfl

namespace Splitting.Complete

variable {st : Splitting} {top : NodeId}

/-- The root of a plan begins at the build side of the join whose table the plan fills, by the keys
of the join, and its rows are spread like those of the join. -/
theorem exists_join (h : st.Complete top) {k : Nat} (hk : k + 1 < st.roots.length) :
    ∃ j n join keys f x y, st.session.node? j = some n ∧ n.kind = .join join ∧
      join.table = .ofNat k ∧ st.roots[k + 1]? = some f ∧ st.session.fragment? f = some x ∧
      x.sink = some { fragment := f, kind := .joinBuild (.ofNat k) keys } ∧
      join.buildKeys = .ok keys ∧ n.children[1]? = some x.root ∧
      st.session.fragment? n.fragment = some y ∧ x.partitioning = y.partitioning := by
  have hf := List.getElem?_eq_getElem hk
  obtain ⟨x, j, n, join, keys, y, hx, hn, hkind, htable, hbuild, hkeys, hsink, hy, hs⟩ :=
    h.exists_supplied hf
  obtain ⟨m, hstaged⟩ := h.staged
  have htimely := hstaged.timely (h.below hn) hs
  rw [htable] at hsink
  exact ⟨j, n, join, keys, _, x, y, hn, hkind, htable, hf, hx, hsink, hkeys, hbuild, hy,
    htimely.partitioning⟩

/-- The joins with tables, by the numbers of their tables. -/
theorem exists_joins (h : st.Complete top) : ∃ js : List NodeId, js.Nodup ∧
    st.roots.length = js.length + 1 ∧
    (∀ j, j ∈ js ↔ ∃ n join, st.session.node? j = some n ∧ n.kind = .join join ∧
      join.table.isValid = true) ∧
    ∀ (k : Nat) (j : NodeId), js[k]? = some j → ∃ n join, st.session.node? j = some n ∧
      n.kind = .join join ∧ join.table = .ofNat k := by
  have hp := h.progress
  have hpos := hp.roots_pos
  have hjoin (k : Fin (st.roots.length - 1)) : ∃ j n join, st.session.node? j = some n ∧
      n.kind = .join join ∧ join.table = .ofNat k := by
    have hk : k.val + 1 < st.roots.length := by omega
    obtain ⟨j, n, join, _, _, _, _, hn, hkind, htable, _⟩ := h.exists_join hk
    exact ⟨j, n, join, hn, hkind, htable⟩
  choose g hg using hjoin
  have hinjective : Function.Injective g := by
    intro k l hkl
    obtain ⟨n, join, hn, hkind, htable⟩ := hg k
    obtain ⟨n', join', hn', hkind', htable'⟩ := hg l
    rw [← hkl, hn] at hn'
    obtain rfl := Option.some.inj hn'
    obtain rfl := NodeKind.join.inj (hkind.symm.trans hkind')
    exact Fin.ext (Numbered.ofNat_injective (htable.symm.trans htable'))
  refine ⟨List.ofFn g, List.nodup_ofFn.mpr hinjective, ?_, fun j ↦ ?_, fun k j hj ↦ ?_⟩
  · rw [List.length_ofFn]
    omega
  · rw [List.mem_ofFn]
    constructor
    · rintro ⟨k, rfl⟩
      obtain ⟨n, join, hn, hkind, htable⟩ := hg k
      refine ⟨n, join, hn, hkind, ?_⟩
      rw [htable]
      exact Id.isValid_ofNat _
    · rintro ⟨n, join, hn, hkind, hvalid⟩
      obtain ⟨k, f, _, htable, hf, _⟩ := hp.tabled hn hkind hvalid
      have hlt := (List.getElem?_eq_some_iff.mp hf).1
      obtain ⟨n', join', hn', hkind', htable'⟩ := hg ⟨k, by omega⟩
      refine ⟨⟨k, by omega⟩, ?_⟩
      exact (h.table_injective hn hkind hn' hkind' hvalid (htable.trans htable'.symm)).symm
  · rw [List.getElem?_ofFn] at hj
    split at hj
    · obtain rfl := Option.some.inj hj
      exact hg _
    · cases hj

end Splitting.Complete

namespace Session

variable {s s' : Session} {root : FragmentId} {roots : List FragmentId} {spec : PlanSpec}
  {catalog catalog' : Catalog} {cluster : Cluster} {options : Options}

/-- Exactly the joins that no subplan evaluates get tables, and each of them gives rise to one plan
and one fragment. The tables are numbered like the plans that fill them: the plan for a join begins
at its build side, and its rows go to the table of the join by the keys of the join and are spread
like those of the join. -/
theorem createPlans_extracts_joins
    (hbuild : spec.build catalog cluster options = (.ok (root, s), catalog'))
    (hrun : s.createPlans root = (.ok roots, s')) :
    (∀ j n join, s'.node? j = some n → n.kind = .join join →
      (join.table.isValid = true ↔ ¬s'.Evaluated j)) ∧
    s.fragments.length = 1 + spec.root.exchangeCount ∧
    ∃ js : List NodeId, js.Nodup ∧
      (∀ j, j ∈ js ↔ ∃ n join, s'.node? j = some n ∧ n.kind = .join join ∧ ¬s'.Evaluated j) ∧
      roots.length = js.length + 1 ∧ s'.fragments.length = s.fragments.length + js.length ∧
      ∀ (k : Nat) (j : NodeId), js[k]? = some j → ∃ n join keys f x y, s'.node? j = some n ∧
        n.kind = .join join ∧ join.table = .ofNat k ∧
        (∀ i m other, s'.node? i = some m → m.kind = .join other → other.table = .ofNat k →
          i = j) ∧
        roots[k + 1]? = some f ∧ s'.fragment? f = some x ∧
        x.sink = some { fragment := f, kind := .joinBuild (.ofNat k) keys } ∧
        join.buildKeys = .ok keys ∧ n.children[1]? = some x.root ∧
        s'.fragment? n.fragment = some y ∧ x.partitioning = y.partitioning := by
  have hfrom := PlanSpec.buildFrom_of_build hbuild
  obtain ⟨hbinary, hfragments⟩ := PlanSpec.shaped_of_buildFrom hfrom
  have hwf := PlanSpec.wellFormed_of_buildFrom hfrom
  have hsplit := hwf.split hrun
  have hgrown := (hsplit.fragments hwf).length_eq
  rw [List.length_append, List.length_map, List.length_map, List.length_tail] at hgrown
  obtain ⟨st, top, rfl, rfl, hc⟩ := hwf.complete hrun
  have htabled (j : NodeId) (n : Node) (join : Join) (hn : st.session.node? j = some n)
      (hkind : n.kind = .join join) : join.table.isValid = true ↔ ¬st.session.Evaluated j := by
    rw [hc.settled.tabled (hc.below hn) hn hkind, (hbinary.of_plan hsplit.plan).skipped_iff]
  obtain ⟨js, hnodup, hlength, hmem, hjs⟩ := hc.exists_joins
  refine ⟨htabled, hfragments, js, hnodup, fun j ↦ ?_, hlength, by omega, fun k j hj ↦ ?_⟩
  · rw [hmem]
    constructor
    · rintro ⟨n, join, hn, hkind, hvalid⟩
      exact ⟨n, join, hn, hkind, (htabled j n join hn hkind).mp hvalid⟩
    · rintro ⟨n, join, hn, hkind, hevaluated⟩
      exact ⟨n, join, hn, hkind, (htabled j n join hn hkind).mpr hevaluated⟩
  · have hk := (List.getElem?_eq_some_iff.mp hj).1
    obtain ⟨n, join, hn, hkind, htable⟩ := hjs k j hj
    have hvalid : join.table.isValid = true := by
      rw [htable]
      exact Id.isValid_ofNat k
    obtain ⟨j', n', join', keys, f, x, y, hn', hkind', htable', hrest⟩ :=
      hc.exists_join (k := k) (by omega)
    obtain rfl := hc.table_injective hn hkind hn' hkind' hvalid (htable.trans htable'.symm)
    refine ⟨n', join', keys, f, x, y, hn', hkind', htable',
      fun i m other hm hother hsame ↦ ?_, hrest⟩
    exact (hc.table_injective hn hkind hm hother hvalid (htable.trans hsame.symm)).symm

end Session

namespace PlanSpec

/-- A subplan with a join on either side; the build side of the first one is in another fragment. -/
def lateral : PlanSpec where
  root := .subplan (.join {} .singularRow (.exchange .unpartitioned .random .singularRow))
    (.join {} .singularRow .singularRow)

theorem exists_build_lateral : ∃ s s' : Session, lateral.build {} {} {} = (.ok (⟨1⟩, s), {}) ∧
    s.createPlans ⟨1⟩ = (.ok [⟨1⟩, ⟨2⟩], s') := by
  have hroots : lateral.roots? = some (⟨1⟩, [⟨1⟩, ⟨2⟩]) := by decide +kernel
  obtain ⟨s, s', hs, hrun⟩ := exists_of_roots? hroots
  refine ⟨s, s', ?_, hrun⟩
  rw [build_of_nil rfl, hs]

end PlanSpec

theorem Session.createPlans_extracts_joins_lateral : ∃ s s' : Session,
    PlanSpec.lateral.build {} {} {} = (.ok (⟨1⟩, s), {}) ∧
    s.createPlans ⟨1⟩ = (.ok [⟨1⟩, ⟨2⟩], s') ∧ s.fragments.length = 2 ∧ s'.fragments.length = 3 ∧
    ∃ j : NodeId, ∀ i, i = j ↔ ∃ n join, s'.node? i = some n ∧ n.kind = .join join ∧
      ¬s'.Evaluated i := by
  obtain ⟨s, s', hs, hrun⟩ := PlanSpec.exists_build_lateral
  obtain ⟨_, hbefore, js, _, hmem, hlength, hafter, _⟩ := createPlans_extracts_joins hs hrun
  obtain ⟨j, rfl⟩ := List.length_eq_one_iff.mp (Nat.succ.inj hlength).symm
  refine ⟨s, s', hs, hrun, hbefore, ?_, j, fun i ↦ ?_⟩
  · rw [hafter, hbefore]
    rfl
  · rw [← hmem, List.mem_singleton]

end QueryPlanning
