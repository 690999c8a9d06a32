import QueryPlanning.Proofs.Plan.Settling
import QueryPlanning.Proofs.Spec.Build

/-!
# The plans of a split

A complete plan is split into trees of fragments that share nothing and together hold every
fragment. Each tree is one plan with one cohort. Splitting changes no node but for its fragment and
its join table, and it leaves every edge of the tree of nodes realised in exactly one way: within a
fragment, across an exchange, or across a join whose build side is a plan of its own.
-/

namespace QueryPlanning

namespace PlanSpec

/-- The top of the plan for a specification and the roots of the plans that it is split into. -/
def roots? (spec : PlanSpec) : Option (FragmentId × List FragmentId) := do
  let (root, s) ← (spec.buildFrom {} {} {}).toOption
  let roots ← (s.createPlans root).1.toOption
  return (root, roots)

theorem exists_of_roots? {spec : PlanSpec} {root : FragmentId} {roots : List FragmentId}
    (h : spec.roots? = some (root, roots)) :
    ∃ s s', spec.buildFrom {} {} {} = .ok (root, s) ∧ s.createPlans root = (.ok roots, s') := by
  obtain ⟨⟨root', s⟩, hs, h⟩ := Option.bind_eq_some_iff.mp h
  obtain ⟨roots', hroots, h⟩ := Option.bind_eq_some_iff.mp h
  obtain ⟨rfl, rfl⟩ := Prod.mk.inj (Option.some.inj h)
  have hrun : (s.createPlans root').1 = .ok roots' := Outcome.toOption_eq_some.mp hroots
  exact ⟨s, _, Outcome.toOption_eq_some.mp hs, Prod.ext hrun rfl⟩

theorem exists_plans {spec : PlanSpec} {root : FragmentId} {roots : List FragmentId}
    (h : spec.roots? = some (root, roots)) :
    ∃ s s' : Session, s.WellFormed root ∧ s.createPlans root = (.ok roots, s') := by
  obtain ⟨s, s', hs, hrun⟩ := exists_of_roots? h
  exact ⟨s, s', wellFormed_of_buildFrom hs, hrun⟩

/-- A join whose build side another fragment sends to it. -/
def broadcast : PlanSpec where
  root := .join {} .singularRow (.exchange .unpartitioned .random .singularRow)

theorem exists_plans_broadcast :
    ∃ s s' : Session, s.WellFormed ⟨1⟩ ∧ s.createPlans ⟨1⟩ = (.ok [⟨1⟩, ⟨2⟩], s') := by
  have hroots : broadcast.roots? = some (⟨1⟩, [⟨1⟩, ⟨2⟩]) := by decide +kernel
  exact exists_plans hroots

end PlanSpec

namespace Session

/-- Some plans, given by their roots, hold all nodes and fragments of a session: every node has a
fragment, and the roots are the fragments that feed no exchange. -/
structure Planned (s : Session) (roots : List FragmentId) : Prop where
  coherent : s.Coherent
  owned {i : NodeId} {n : Node} : s.node? i = some n → n.fragment ≠ .invalid
  nodup : roots.Nodup
  mem_roots {f : FragmentId} : f ∈ roots ↔ ∃ x, s.fragment? f = some x ∧ x.destination = none

namespace Planned

variable {s : Session} {roots : List FragmentId}

/-- Every fragment is in the tree of a root. -/
theorem exists_inTree (h : s.Planned roots) {f : FragmentId} {x : Fragment}
    (hx : s.fragment? f = some x) : ∃ r ∈ roots, s.InTree r f := by
  obtain ⟨n, hn, rfl⟩ := h.coherent.root hx
  refine h.coherent.tree.upward h.coherent.ordered (P := fun i ↦ ∀ n, s.node? i = some n →
    ∃ r ∈ roots, s.InTree r n.fragment) ?_ hn n hn
  intro i ih n hn
  obtain ⟨y, hy, hi⟩ := h.coherent.connected hn (h.owned hn)
  rcases hi with rfl | ⟨p, m, hm, him, hsame⟩
  · cases hdest : y.destination with
    | none => exact ⟨_, h.mem_roots.mpr ⟨y, hy, hdest⟩, .refl⟩
    | some e =>
      obtain ⟨m, hm, _, hchild, hparent⟩ := h.coherent.fed hy hdest
      obtain ⟨r, hr, hin⟩ := ih e hchild m hm
      have howner : m.owner? = some m.fragment := Node.owner?_eq_some.mpr ⟨rfl, h.owned hm⟩
      rw [howner] at hparent
      exact ⟨r, hr, hin.tail ((parent?_eq hy).trans hparent)⟩
  · obtain ⟨r, hr, hin⟩ := ih p ⟨m, hm, him⟩ m hm
    exact ⟨r, hr, hsame ▸ hin⟩

/-- The trees of two roots have nothing in common. -/
theorem roots_disjoint (h : s.Planned roots) {r r' f : FragmentId} (hr : r ∈ roots)
    (hr' : r' ∈ roots) (hne : r ≠ r') (hin : s.InTree r f) :
    ¬s.InTree r' f := by
  have apart {r r' : FragmentId} (hr' : r' ∈ roots) (hne : r ≠ r') :
      ¬s.InTree r r' := by
    intro hin
    rcases Relation.ReflTransGen.cases_tail hin with heq | ⟨g, _, hparent⟩
    · exact hne heq.symm
    · obtain ⟨x, hx, hdest⟩ := h.mem_roots.mp hr'
      rw [parent?_eq hx, h.coherent.orphan hx hdest] at hparent
      cases hparent
  intro hin'
  rcases hin.total hin' with hrr | hrr
  · exact apart hr' hne hrr
  · exact apart hr hne.symm hrr

/-- The trees of the roots hold every fragment once. -/
theorem trees (h : s.Planned roots) :
    ∃ trees, roots.mapM s.fragmentTree = .ok trees ∧
      trees.flatten.Perm (s.fragments.map (·.id)) ∧
      List.Forall₂ (fun r tree ↦ r ∈ tree ∧ ∀ f ∈ tree, s.InTree r f) roots trees := by
  have tree (r : FragmentId) (hr : r ∈ roots) : ∃ tree, s.fragmentTree r = .ok tree ∧
      tree.Nodup ∧ ∀ f, f ∈ tree ↔ s.InTree r f := by
    obtain ⟨x, hx, _⟩ := h.mem_roots.mp hr
    obtain ⟨tree, htree, _, hnodup, hmem⟩ :=
      exists_fragmentTree h.coherent.linked h.coherent.acyclic hx
    exact ⟨tree, htree, hnodup, hmem⟩
  obtain ⟨trees, htrees⟩ := Outcome.exists_mapM fun r hr ↦ (tree r hr).imp fun _ ↦ And.left
  have hspec {r : FragmentId} (hr : r ∈ roots) {l : List FragmentId}
      (hl : s.fragmentTree r = .ok l) :
      l.Nodup ∧ ∀ f, f ∈ l ↔ s.InTree r f := by
    obtain ⟨l', hl', hspec⟩ := tree r hr
    obtain rfl := Except.ok.inj (hl.symm.trans hl')
    exact hspec
  refine ⟨trees, htrees, ?_, ?_⟩
  · have hnodup : trees.flatten.Nodup := by
      apply Outcome.nodup_flatten_of_mapM htrees h.nodup (fun r hr l hl ↦ (hspec hr hl).1)
      intro r hr r' hr' hne l l' hl hl' f hf hf'
      exact h.roots_disjoint hr hr' hne (((hspec hr hl).2 f).mp hf) (((hspec hr' hl').2 f).mp hf')
    apply (List.perm_ext_iff_of_nodup hnodup h.coherent.ordered.fragments.nodup).mpr
    intro f
    rw [Outcome.mem_flatten_of_mapM htrees, h.coherent.ordered.mem_ids]
    constructor
    · rintro ⟨r, hr, l, hl, hf⟩
      rcases Relation.ReflTransGen.cases_tail (((hspec hr hl).2 f).mp hf) with
        rfl | ⟨g, _, hparent⟩
      · obtain ⟨x, hx, _⟩ := h.mem_roots.mp hr
        exact ⟨x, hx⟩
      · obtain ⟨x, hx, _⟩ := fragment?_of_parent? hparent
        exact ⟨x, hx⟩
    · rintro ⟨x, hx⟩
      obtain ⟨r, hr, hin⟩ := h.exists_inTree hx
      obtain ⟨l, hl, hspec'⟩ := tree r hr
      exact ⟨r, hr, l, hl, (hspec'.2 _).mpr hin⟩
  · refine (List.forall₂_iff_get.mpr ?_)
    have hall := List.forall₂_iff_get.mp (Outcome.mapM_eq_ok.mp htrees)
    refine ⟨hall.1, fun i hi hi' ↦ ?_⟩
    have hmem : roots.get ⟨i, hi⟩ ∈ roots := List.get_mem _ _
    have hl := (hspec hmem (hall.2 i hi hi')).2
    exact ⟨(hl _).mpr .refl, fun f hf ↦ (hl f).mp hf⟩

end Planned

end Session

namespace Splitting

variable {st st' : Splitting} {top : NodeId}

/-- A fragment and those below it in its tree are one plan in one cohort, and a fragment has the
plan and the cohort of its parent. -/
theorem Progress.plan_of_inTree (h : st.Progress top)
    (hbelow : ∀ i n, st.session.node? i = some n → st.session.Below top i)
    (hsettled : st.session.SettledBelow top) {r f : FragmentId} {x y : Fragment}
    (hx : st.session.fragment? r = some x) (hy : st.session.fragment? f = some y)
    (hin : st.session.InTree r f) : y.plan = x.plan ∧ y.cohort = x.cohort := by
  induction hin generalizing y with
  | refl =>
    obtain rfl := Option.some.inj (hx.symm.trans hy)
    exact ⟨rfl, rfl⟩
  | @tail g f _ hparent ih =>
    obtain ⟨z, hz⟩ := h.coherent.linked.parent hparent
    obtain ⟨hplan, hcohort⟩ := ih hz
    rw [Session.parent?_eq hy] at hparent
    obtain ⟨n, hn, _⟩ := h.coherent.root hy
    obtain ⟨e, m, hm, _, _, hchild⟩ := h.coherent.exists_exchange hy hparent
    have hne : y.root ≠ top := by
      rintro heq
      rw [heq] at hchild
      exact h.top e hchild
    obtain ⟨hplan', hcohort'⟩ :=
      hsettled.inherits hy (hbelow _ n hn) hne hparent hz
    exact ⟨hplan'.trans hplan, hcohort'.trans hcohort⟩

theorem Progress.planned (h : st.Progress top) : st.session.Planned st.roots :=
  ⟨h.coherent, h.owned, h.nodup, h.mem_roots⟩

theorem Progress.trees (h : st.Progress top) :
    ∃ trees, st.roots.mapM st.session.fragmentTree = .ok trees ∧
      trees.flatten.Perm (st.session.fragments.map (·.id)) ∧
      List.Forall₂ (fun r tree ↦ r ∈ tree ∧ ∀ f ∈ tree, st.session.InTree r f) st.roots trees :=
  h.planned.trees

end Splitting

namespace Split

/-- The steps of a split. -/
theorem steps_of_start {st st' : Splitting} {root : FragmentId} {roots : List FragmentId}
    (h : Runs (start root) st roots st') :
    ∃ depth, Runs (extractAll depth root none) { st with
      session := st.session.setPlan root st.plans.peek st.cohorts.peek
      roots := [root]
      plans := st.plans.take.2
      cohorts := st.cohorts.take.2 } () st' ∧ roots = st'.roots := by
  unfold start at h
  obtain ⟨f, _, askFragment, h⟩ := runs_bind.mp h
  obtain ⟨_, rfl⟩ := runs_ask.mp askFragment
  split at h
  · obtain ⟨_, _, hthrow, _⟩ := runs_bind.mp h
    exact absurd hthrow not_runs_throw
  · simp only [runs_bind] at h
    obtain ⟨_, _, takePlan, _, _, takeCohort, _, _, setPlan, _, _, addRoot, _, _, get, _, _,
      extract, _, _, get', hpure⟩ := h
    obtain ⟨rfl, rfl⟩ := runs_takePlan.mp takePlan
    obtain ⟨rfl, rfl⟩ := runs_takeCohort.mp takeCohort
    obtain rfl := runs_update.mp setPlan
    obtain rfl := runs_modify.mp addRoot
    obtain ⟨rfl, rfl⟩ := runs_get.mp get
    obtain ⟨rfl, rfl⟩ := runs_get.mp get'
    obtain ⟨rfl, rfl⟩ := runs_pure.mp hpure
    exact ⟨_, extract, rfl⟩

end Split

namespace Session

variable {s s' : Session} {root : FragmentId} {roots : List FragmentId}

/-- The state in which the split of a complete plan begins is one between two steps. -/
theorem WellFormed.progress (h : s.WellFormed root) {x : Fragment}
    (hx : s.fragment? root = some x) :
    Splitting.Progress { session := s.setPlan root ⟨0⟩ ⟨0⟩, roots := [root], tables := ⟨0⟩,
                         plans := ⟨1⟩, cohorts := ⟨1⟩ } x.root := by
  have hroot : (s.setPlan root ⟨0⟩ ⟨0⟩).fragment? root =
      some { x with plan := ⟨0⟩, cohort := ⟨0⟩ } := by
    rw [fragment?_setPlan, if_pos rfl, hx]
    rfl
  have hdestination {f : FragmentId} :
      (∃ y, (s.setPlan root ⟨0⟩ ⟨0⟩).fragment? f = some y ∧ y.destination = none) ↔
        ∃ y, s.fragment? f = some y ∧ y.destination = none := by
    constructor
    · rintro ⟨y', hy', hdest⟩
      obtain ⟨y, hy, _, hsame⟩ := fragment?_setPlan_old hy'
      exact ⟨y, hy, hsame.symm.trans hdest⟩
    · rintro ⟨y, hy, hdest⟩
      obtain ⟨y', hy', _, hsame, _⟩ := fragment?_setPlan_new hy
      exact ⟨y', hy', hsame.trans hdest⟩
  refine ⟨h.coherent.setPlan root _ _, h.owned, List.nodup_singleton _, ?_, ?_,
    h.root_parentless hx, ?_, ?_, ?_, rfl, rfl, Int.one_nonneg⟩
  · intro f
    rw [List.mem_singleton, hdestination]
    exact h.destination
  · exact ⟨root, _, rfl, hroot, rfl⟩
  · intro k f hk
    cases hk
  · intro j n join hn hkind hvalid
    rw [h.untabled hn hkind] at hvalid
    cases hvalid
  · intro k f y hk hy
    cases k with
    | zero =>
      obtain rfl := Option.some.inj hk
      obtain rfl := Option.some.inj (hy.symm.trans hroot)
      exact ⟨rfl, rfl⟩
    | succ k => cases hk

/-- The split of a complete plan begins at its top. -/
theorem WellFormed.due (h : s.WellFormed root) {x : Fragment} (hx : s.fragment? root = some x) :
    Splitting.Due { session := s.setPlan root ⟨0⟩ ⟨0⟩, roots := [root], tables := ⟨0⟩,
                    plans := ⟨1⟩, cohorts := ⟨1⟩ } x.root root
      { x with plan := ⟨0⟩, cohort := ⟨0⟩ } none where
  progress := h.progress hx
  fragment := by
    apply (fragment?_setPlan s root ⟨0⟩ ⟨0⟩ root).trans
    rw [if_pos rfl, hx]
    rfl
  pristine := fun j n join _ hn hkind ↦ h.untabled hn hkind
  clear := by
    have htop := h.root_parentless hx
    exact not_skipped_of_top htop
  current := ⟨Int.zero_lt_one, Int.zero_lt_one, fun hc ↦ nomatch hc⟩

/-- What a split of a complete plan leaves behind. -/
structure Split (s s' : Session) (root : FragmentId) (roots : List FragmentId) : Prop where
  /-- It ends in a state between two steps. -/
  progress {x : Fragment} : s.fragment? root = some x → ∃ st : Splitting,
    st.session = s' ∧ st.roots = roots ∧ st.Progress x.root ∧ s'.SettledBelow x.root
  /-- The first plan and the first cohort are those of the plan that came in. -/
  staged {x : Fragment} : s.fragment? root = some x →
    ∃ m, s'.Staged ⟨1, 1⟩ m ⟨0⟩ none (s'.Below x.root)
  top {x : Fragment} : s.fragment? root = some x → ∃ children,
    s'.fragment? root = some { x with plan := ⟨0⟩, cohort := ⟨0⟩, children }
  plan : s'.plan = s.plan
  old {f : FragmentId} {y : Fragment} : s.fragment? f = some y →
    ∃ y', s'.fragment? f = some y' ∧ y'.root = y.root ∧ y'.destination = y.destination
  new {f : FragmentId} {y' : Fragment} : s'.fragment? f = some y' →
    (∃ y, s.fragment? f = some y) ∨ y'.destination = none

theorem WellFormed.split (h : s.WellFormed root) (hrun : s.createPlans root = (.ok roots, s')) :
    s.Split s' root roots := by
  obtain ⟨x, hx, _⟩ := h.destination.mp rfl
  cases hstart : (QueryPlanning.Split.start root).run.run { session := s } with
  | mk result st =>
    have hcreate : s.createPlans root = (result, st.session) := by
      rw [createPlans, hstart]
    rw [hcreate] at hrun
    obtain ⟨rfl, rfl⟩ := Prod.mk.inj hrun
    obtain ⟨depth, hextract, rfl⟩ := QueryPlanning.Split.steps_of_start hstart
    have hdue := h.due hx
    have hdone := Splitting.settles _ _ _ _ _ _ none hdue hextract
    refine ⟨?_, ?_, ?_, hdone.confined.plan, ?_, ?_⟩
    · intro y hy
      obtain rfl := Option.some.inj (hx.symm.trans hy)
      exact ⟨st, rfl, rfl, hdone.progress, hdone.settled⟩
    · intro y hy
      obtain rfl := Option.some.inj (hx.symm.trans hy)
      rw [below_of_plan hdone.confined.plan]
      exact ⟨st.mark, hdone.staged⟩
    · intro y hy
      obtain rfl := Option.some.inj (hx.symm.trans hy)
      obtain ⟨children, hx', _⟩ := hdone.confined.fragment hdue.fragment (.inl rfl)
      exact ⟨children, hx'⟩
    · intro f y hy
      obtain ⟨y₁, hy₁, hroot₁, hdest₁, _⟩ := fragment?_setPlan_new hy
      obtain ⟨y', hy', hroot'⟩ := hdone.confined.root hy₁
      exact ⟨y', hy', hroot'.trans hroot₁, (hdone.confined.destination hy₁ hy').trans hdest₁⟩
    · intro f y' hy'
      rcases hdone.confined.new hy' with ⟨y₁, hy₁⟩ | ⟨_, hdest⟩
      · obtain ⟨y, hy, _⟩ := fragment?_setPlan_old hy₁
        exact .inl ⟨y, hy⟩
      · exact .inr hdest

/-- The first root is that of the plan that was split. -/
theorem Split.head (h : s.Split s' root roots) (hwf : s.WellFormed root) :
    roots[0]? = some root := by
  obtain ⟨x, hx, _⟩ := hwf.destination.mp rfl
  obtain ⟨st, rfl, rfl, hp, _⟩ := h.progress hx
  obtain ⟨f, y, hf, hy, hroot⟩ := hp.head
  obtain ⟨x', hx', hroot', _⟩ := h.old hx
  rw [hf, hp.coherent.eq_of_root hy hx' (hroot.trans hroot'.symm)]

theorem Split.roots_eq (h : s.Split s' root roots) (hwf : s.WellFormed root) :
    roots = root :: roots.tail := by
  apply List.eq_cons_of_mem_head?
  rw [List.head?_eq_getElem?]
  exact h.head hwf

theorem Split.mem_roots (h : s.Split s' root roots) (hwf : s.WellFormed root) {f : FragmentId} :
    f ∈ roots ↔ ∃ y, s'.fragment? f = some y ∧ y.destination = none := by
  obtain ⟨x, hx, _⟩ := hwf.destination.mp rfl
  obtain ⟨st, rfl, rfl, hp, _⟩ := h.progress hx
  exact hp.mem_roots

theorem Split.nodup (h : s.Split s' root roots) (hwf : s.WellFormed root) :
    root ∉ roots.tail ∧ roots.tail.Nodup := by
  obtain ⟨x, hx, _⟩ := hwf.destination.mp rfl
  obtain ⟨st, rfl, rfl, hp, _⟩ := h.progress hx
  have hnodup := hp.nodup
  rw [h.roots_eq hwf] at hnodup
  exact List.nodup_cons.mp hnodup

/-- The roots of the plans that were split off are new. -/
theorem Split.fresh (h : s.Split s' root roots) (hwf : s.WellFormed root) {f : FragmentId}
    (hf : f ∈ roots.tail) {y : Fragment} : s.fragment? f ≠ some y := by
  intro hy
  obtain ⟨y', hy', hdest'⟩ := (h.mem_roots hwf).mp (List.mem_of_mem_tail hf)
  obtain ⟨w, hw, _, hdest⟩ := h.old hy
  obtain rfl := Option.some.inj (hy'.symm.trans hw)
  obtain rfl := hwf.destination.mpr ⟨y, hy, hdest.symm.trans hdest'⟩
  exact (h.nodup hwf).1 hf

/-- The fragments are those that were there and the roots of the plans that were split off. -/
theorem Split.fragments (h : s.Split s' root roots) (hwf : s.WellFormed root) :
    (s'.fragments.map (·.id)).Perm (s.fragments.map (·.id) ++ roots.tail) := by
  obtain ⟨x, hx, _⟩ := hwf.destination.mp rfl
  have hordered := hwf.coherent.ordered
  have hordered' : s'.Ordered := by
    obtain ⟨st, rfl, rfl, hp, _⟩ := h.progress hx
    exact hp.coherent.ordered
  apply (List.perm_ext_iff_of_nodup hordered'.fragments.nodup ?_).mpr
  · intro f
    rw [List.mem_append, hordered'.mem_ids, hordered.mem_ids]
    constructor
    · rintro ⟨y', hy'⟩
      rcases h.new hy' with hy | hdest
      · exact .inl hy
      · have hmem := (h.mem_roots hwf).mpr ⟨y', hy', hdest⟩
        rw [h.roots_eq hwf] at hmem
        rcases List.mem_cons.mp hmem with rfl | hmem
        · exact .inl ⟨x, hx⟩
        · exact .inr hmem
    · rintro (⟨y, hy⟩ | hf)
      · obtain ⟨y', hy', _⟩ := h.old hy
        exact ⟨y', hy'⟩
      · obtain ⟨y', hy', _⟩ := (h.mem_roots hwf).mp (List.mem_of_mem_tail hf)
        exact ⟨y', hy'⟩
  · apply List.nodup_append.mpr ⟨hordered.fragments.nodup, (h.nodup hwf).2, ?_⟩
    rintro f hf g hg rfl
    obtain ⟨y, hy⟩ := hordered.mem_ids.mp hf
    exact h.fresh hwf hg hy

/-- The trees of the plans hold each fragment exactly once: those that were there and those that
were split off. The plan that came in is the first, and all fragments of a tree have the number of
their plan and the same valid cohort. -/
theorem createPlans_covers_fragments (h : s.WellFormed root)
    (hrun : s.createPlans root = (.ok roots, s')) :
    ∃ trees, roots.mapM s'.fragmentTree = .ok trees ∧ trees.flatten.Nodup ∧
      trees.flatten.Perm (s'.fragments.map (·.id)) ∧
      (s'.fragments.map (·.id)).Perm (s.fragments.map (·.id) ++ roots.tail) ∧
      roots[0]? = some root ∧
      ∀ i r tree, roots[i]? = some r → trees[i]? = some tree → r ∈ tree ∧
        ∃ cohort : CohortId, cohort.isValid = true ∧ ∀ f ∈ tree, ∃ x, s'.fragment? f = some x ∧
          x.plan = .ofNat i ∧ x.cohort = cohort := by
  have hsplit := h.split hrun
  have hhead := hsplit.head h
  have hfragments := hsplit.fragments h
  obtain ⟨x, hx, _⟩ := h.destination.mp rfl
  obtain ⟨st, rfl, rfl, hp, hsettled⟩ := hsplit.progress hx
  obtain ⟨trees, htrees, hperm, hall⟩ := hp.trees
  have hnodup := hperm.nodup_iff.mpr hp.coherent.ordered.fragments.nodup
  refine ⟨trees, htrees, hnodup, hperm, hfragments, hhead, fun i r tree hr htree ↦ ?_⟩
  obtain ⟨hlt, rfl⟩ := List.getElem?_eq_some_iff.mp hr
  obtain ⟨hlt', rfl⟩ := List.getElem?_eq_some_iff.mp htree
  obtain ⟨hmem, hin⟩ := (List.forall₂_iff_get.mp hall).2 i hlt hlt'
  obtain ⟨y, hy, _⟩ := hp.mem_roots.mp (List.getElem_mem hlt)
  obtain ⟨hplan, hcohort⟩ := hp.plan hr hy
  refine ⟨hmem, y.cohort, hcohort, fun f hf ↦ ?_⟩
  have hf' : f ∈ st.session.fragments.map (·.id) :=
    hperm.mem_iff.mp (List.mem_flatten.mpr ⟨_, List.getElem_mem hlt', hf⟩)
  obtain ⟨z, hz⟩ := hp.coherent.ordered.mem_ids.mp hf'
  have hbelow (i : NodeId) (n : Node) (hn : st.session.node? i = some n) :
      st.session.Below x.root i := by
    obtain ⟨n', hn', _⟩ := exists_node?_of_plan hsplit.plan.symm hn
    rw [below_of_plan hsplit.plan]
    exact h.below hx hn'
  obtain ⟨hplan', hcohort'⟩ := hp.plan_of_inTree hbelow hsettled hy hz (hin _ hf)
  exact ⟨z, hz, hplan'.trans hplan, hcohort'⟩

theorem createPlans_covers_fragments_broadcast :
    ∃ s s' : Session, s.WellFormed ⟨1⟩ ∧ s.createPlans ⟨1⟩ = (.ok [⟨1⟩, ⟨2⟩], s') ∧
      ∃ trees, [⟨1⟩, ⟨2⟩].mapM s'.fragmentTree = .ok trees ∧ trees.flatten.Nodup ∧
        trees.flatten.Perm (s'.fragments.map (·.id)) ∧
        (s'.fragments.map (·.id)).Perm (s.fragments.map (·.id) ++ [⟨2⟩]) := by
  obtain ⟨s, s', h, hrun⟩ := PlanSpec.exists_plans_broadcast
  obtain ⟨trees, htrees, hnodup, hperm, hfragments, _⟩ := createPlans_covers_fragments h hrun
  exact ⟨s, s', h, hrun, trees, htrees, hnodup, hperm, hfragments⟩

/-! ## Edges -/

/-- The node and its child are in one fragment. -/
def Within (s : Session) (p c : NodeId) : Prop :=
  ∃ m n, s.node? p = some m ∧ s.node? c = some n ∧ m.fragment = n.fragment

/-- The child is the root of the fragment from which the exchange receives rows. -/
def Streamed (s : Session) (p c : NodeId) : Prop :=
  ∃ m f x partitioning memory, s.node? p = some m ∧ m.kind = .exchange f ∧
    s.fragment? f = some x ∧ x.root = c ∧ x.destination = some p ∧
    x.sink = some ⟨f, .stream p partitioning, memory⟩ ∧ x.parent = some m.fragment

/-- The child is the root of the plan that fills the table of the join. -/
def Stored (s : Session) (roots : List FragmentId) (p c : NodeId) : Prop :=
  ∃ (m : Node) (join : Join) (k : Nat) (f : FragmentId) (x : Fragment) (keys : List Expr)
      (memory : Int), s.node? p = some m ∧ m.kind = .join join ∧
    join.table.isValid = true ∧ m.children[1]? = some c ∧ roots[k]? = some f ∧
    s.fragment? f = some x ∧ x.root = c ∧
    x.sink = some ⟨f, .joinBuild join.table keys, memory⟩ ∧
    ∀ (k' : Nat) (f' : FragmentId) (x' : Fragment),
      roots[k']? = some f' → s.fragment? f' = some x' → x'.root = c → k' = k

theorem Coherent.not_within (h : s.Coherent) {p c : NodeId} (hchild : s.Child p c)
    {f : FragmentId} {x : Fragment} (hx : s.fragment? f = some x) (hroot : x.root = c) :
    ¬s.Within p c := by
  rintro ⟨m, n, hm, hn, hsame⟩
  subst hroot
  obtain ⟨n', hn', rfl⟩ := h.root hx
  obtain rfl := Option.some.inj (hn.symm.trans hn')
  exact h.tree.not_below_child hchild (h.below_root hm (hsame ▸ hx))

/-- A split changes no node but for its fragment and its join table, and each edge is realised in
exactly one of three ways. -/
theorem createPlans_realises_edges (h : s.WellFormed root)
    (hrun : s.createPlans root = (.ok roots, s')) :
    s'.nodes.map Node.plain = s.nodes.map Node.plain ∧
      ∀ p m c, s'.node? p = some m → c ∈ m.children →
        (s'.Within p c ∧ ¬s'.Streamed p c ∧ ¬s'.Stored roots p c) ∨
        (¬s'.Within p c ∧ s'.Streamed p c ∧ ¬s'.Stored roots p c) ∨
        (¬s'.Within p c ∧ ¬s'.Streamed p c ∧ s'.Stored roots p c) := by
  have hsplit := h.split hrun
  obtain ⟨x, hx, _⟩ := h.destination.mp rfl
  obtain ⟨st, rfl, rfl, hp, _⟩ := hsplit.progress hx
  refine ⟨hsplit.plan, fun p m c hm hc ↦ ?_⟩
  have hchild : st.session.Child p c := ⟨m, hm, hc⟩
  obtain ⟨n, hn⟩ := hp.coherent.tree.child hchild
  have not_within_of_streamed (hs : st.session.Streamed p c) : ¬st.session.Within p c := by
    obtain ⟨_, _, _, _, _, _, _, hy, hroot, _⟩ := hs
    exact hp.coherent.not_within hchild hy hroot
  have not_within_of_stored (hs : st.session.Stored st.roots p c) : ¬st.session.Within p c := by
    obtain ⟨_, _, _, _, _, _, _, _, _, _, _, _, hy, hroot, _⟩ := hs
    exact hp.coherent.not_within hchild hy hroot
  have not_stored_of_streamed (hs : st.session.Streamed p c) :
      ¬st.session.Stored st.roots p c := by
    rintro ⟨m', _, _, _, _, _, _, hm', hkind, _⟩
    obtain ⟨m'', _, _, _, _, hm'', hkind', _⟩ := hs
    obtain rfl := Option.some.inj (hm'.symm.trans hm'')
    cases hkind.symm.trans hkind'
  rcases hp.edge hm hc hn with hsame | hkind | ⟨join, hkind, hvalid, hbuild⟩
  · have hwithin : st.session.Within p c := ⟨m, n, hm, hn, hsame⟩
    refine .inl ⟨hwithin, fun hs ↦ ?_, fun hs ↦ ?_⟩
    · exact not_within_of_streamed hs hwithin
    · exact not_within_of_stored hs hwithin
  · have hstreamed : st.session.Streamed p c := by
      obtain ⟨y, partitioning, memory, hy, hchildren, hdest, hsink, hparent⟩ :=
        hp.coherent.exchange hm hkind
      rw [hchildren, List.mem_singleton] at hc
      have howner : m.owner? = some m.fragment := Node.owner?_eq_some.mpr ⟨rfl, hp.owned hm⟩
      exact ⟨m, _, y, partitioning, memory, hm, hkind, hy, hc.symm, hdest, hsink,
        hparent.trans howner⟩
    exact .inr (.inl ⟨not_within_of_streamed hstreamed, hstreamed,
      not_stored_of_streamed hstreamed⟩)
  · have hstored : st.session.Stored st.roots p c := by
      obtain ⟨k, f, y, htable, hf, hy, hbuild'⟩ := hp.tabled hm hkind hvalid
      obtain ⟨y', j, m', join', keys, hy', hm', hkind', htable', hbuild'', _, hsink⟩ := hp.build hf
      obtain rfl := Option.some.inj (hy.symm.trans hy')
      have hroot : c = y.root := Option.some.inj (hbuild.symm.trans hbuild')
      refine ⟨m, join, k + 1, f, y, keys, -1, hm, hkind, hvalid, hbuild, hf, hy, hroot.symm, ?_, ?_⟩
      · rw [hsink, htable, htable']
      · intro k' f' y'' hf' hy'' hroot'
        have heq := hp.coherent.eq_of_root hy'' hy (hroot'.trans hroot)
        rw [heq, ← hf] at hf'
        exact (List.getElem?_inj (List.getElem?_eq_some_iff.mp (hf'.trans hf)).1 hp.nodup).mp hf'
    refine .inr (.inr ⟨not_within_of_stored hstored, fun hs ↦ ?_, hstored⟩)
    exact not_stored_of_streamed hs hstored

theorem createPlans_realises_edges_broadcast :
    ∃ s s' : Session, s.WellFormed ⟨1⟩ ∧ s.createPlans ⟨1⟩ = (.ok [⟨1⟩, ⟨2⟩], s') ∧
      s'.nodes.map Node.plain = s.nodes.map Node.plain ∧
      ∀ p m c, s'.node? p = some m → c ∈ m.children →
        s'.Within p c ∨ s'.Streamed p c ∨ s'.Stored [⟨1⟩, ⟨2⟩] p c := by
  obtain ⟨s, s', h, hrun⟩ := PlanSpec.exists_plans_broadcast
  obtain ⟨hplain, hedges⟩ := createPlans_realises_edges h hrun
  refine ⟨s, s', h, hrun, hplain, fun p m c hm hc ↦ ?_⟩
  rcases hedges p m c hm hc with ⟨hwithin, _⟩ | ⟨_, hstreamed, _⟩ | ⟨_, _, hstored⟩
  · exact .inl hwithin
  · exact .inr (.inl hstreamed)
  · exact .inr (.inr hstored)

end Session

end QueryPlanning
