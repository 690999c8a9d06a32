import QueryPlanning.Proofs.Plan.Schedule

/-!
# Splitting a plan

The recursion over a fragment extracts the joins of the fragment one after the other, each with all
that is below its build side, and then goes down to the fragments that are left below it. By then
every node below the fragment's root is in the fragment, below one of its children or below one of
the extracted build sides, and these regions have nothing in common.
-/

namespace QueryPlanning

namespace Session

variable {s s' : Session} {region : NodeId → Prop} {o : FragmentId}

theorem Pristine.confined {b : NodeId} (h : s.Pristine b) (hc : s.Confined s' region o)
    (hout : ∀ i, s.Below b i → ¬region i) : s'.Pristine b := by
  intro j n join hj hn hkind
  rw [below_of_plan hc.plan] at hj
  rw [hc.node (hout j hj)] at hn
  exact h j n join hj hn hkind

/-- The join `j` of the fragment `i` can be extracted: it is not skipped, and neither it nor a join
below its build side has a table. -/
def Ready (s : Session) (i : FragmentId) (j : NodeId) : Prop :=
  ∃ n join, s.node? j = some n ∧ n.kind = .join join ∧ join.table.isValid = false ∧
    n.fragment = i ∧ ¬s.Skipped j ∧ ∀ b, s.Build j b → s.Pristine b

/-- The join `j` of the fragment `i` has a table, its build side is a fragment of its own, and what
is below that is settled. -/
def SplitOff (s : Session) (i : FragmentId) (j : NodeId) : Prop :=
  ∃ n join f x, s.node? j = some n ∧ n.kind = .join join ∧ join.table.isValid = true ∧
    n.fragment = i ∧ s.Build j x.root ∧ s.fragment? f = some x ∧ f ≠ i ∧ s.SettledBelow x.root

/-- Neither join is below the build side of the other. -/
def Apart (s : Session) (j j' : NodeId) : Prop :=
  (∀ b, s.Build j b → ¬s.Below b j') ∧ ∀ b, s.Build j' b → ¬s.Below b j

/-- What the extraction of some joins changes. -/
def JoinsRegion (s : Session) (js : List NodeId) (m : NodeId) : Prop :=
  ∃ j ∈ js, s.JoinRegion j m

/-- What lies below the roots of some fragments. -/
def BelowRoots (s : Session) (cs : List FragmentId) (m : NodeId) : Prop :=
  ∃ c ∈ cs, ∃ z, s.fragment? c = some z ∧ s.Below z.root m

/-- The child `c` of the fragment `i` is to be split: no join below it has a table. -/
def Pending (s : Session) (i c : FragmentId) : Prop :=
  ∃ z, s.fragment? c = some z ∧ z.parent = some i ∧ s.Pristine z.root

theorem joinsRegion_of_plan (h : s'.plan = s.plan) : s'.JoinsRegion = s.JoinsRegion := by
  unfold JoinsRegion
  rw [joinRegion_of_plan h]

theorem belowRoots_congr (h : s'.plan = s.plan) {cs : List FragmentId}
    (hsame : ∀ c ∈ cs, s'.fragment? c = s.fragment? c) : s'.BelowRoots cs = s.BelowRoots cs := by
  funext m
  unfold BelowRoots
  rw [below_of_plan h, eq_iff_iff]
  constructor
  · rintro ⟨c, hc, hm⟩
    exact ⟨c, hc, hsame c hc ▸ hm⟩
  · rintro ⟨c, hc, hm⟩
    exact ⟨c, hc, (hsame c hc).symm ▸ hm⟩

theorem apart_of_plan (h : s'.plan = s.plan) : s'.Apart = s.Apart := by
  unfold Apart
  rw [build_of_plan h, below_of_plan h]

theorem Apart.disjoint (ht : s.Treelike) {j j' i : NodeId} (h : s.Apart j j') (hne : j ≠ j')
    (hj : s.JoinRegion j i) : ¬s.JoinRegion j' i := by
  have apart {j j' b b' : NodeId} (hb : s.Build j b) (hb' : s.Build j' b')
      (hout : ∀ b, s.Build j b → ¬s.Below b j') (hne : j ≠ j') : ¬s.Below b b' := by
    intro hbb
    by_cases heq : b = b'
    · subst heq
      exact hne (ht.unique (child_of_build hb) (child_of_build hb'))
    · exact hout b hb (ht.below_parent hbb heq (child_of_build hb'))
  rintro (rfl | ⟨b', hb', hi'⟩)
  · rcases hj with rfl | ⟨b, hb, hi⟩
    · exact hne rfl
    · exact h.1 b hb hi
  · rcases hj with rfl | ⟨b, hb, hi⟩
    · exact h.2 b' hb' hi'
    · rcases ht.total hi hi' with hbb | hbb
      · exact apart hb hb' h.1 hne hbb
      · exact apart hb' hb h.2 hne.symm hbb

theorem not_joinsRegion (ht : s.Treelike) {j i : NodeId} {js : List NodeId} (hj : j ∉ js)
    (hapart : ∀ k ∈ js, k ≠ j → s.Apart k j) (hi : s.JoinRegion j i) : ¬s.JoinsRegion js i := by
  rintro ⟨k, hk, hi'⟩
  have hne : k ≠ j := by
    rintro rfl
    exact hj hk
  exact (hapart k hk hne).disjoint ht hne hi' hi

theorem Ready.confined {i : FragmentId} {j : NodeId} (h : s.Ready i j)
    (hc : s.Confined s' region o) (hout : ∀ m, s.JoinRegion j m → ¬region m) : s'.Ready i j := by
  obtain ⟨n, join, hn, hkind, htable, hfrag, hskipped, hpristine⟩ := h
  rw [← skipped_of_plan hc.plan] at hskipped
  refine ⟨n, join, (hc.node (hout j (.inl rfl))).trans hn, hkind, htable, hfrag, hskipped,
    fun b hb ↦ ?_⟩
  rw [build_of_plan hc.plan] at hb
  exact (hpristine b hb).confined hc fun m hm ↦ hout m (.inr ⟨b, hb, hm⟩)

theorem SplitOff.confined {i : FragmentId} {j : NodeId} (h : s.SplitOff i j) (hs : s.Coherent)
    (hc : s.Confined s' region o) (hout : ∀ m, s.JoinRegion j m → ¬region m) : s'.SplitOff i j := by
  obtain ⟨n, join, f, x, hn, hkind, hvalid, hfrag, hbuild, hx, hne, hsettled⟩ := h
  obtain ⟨x', hx', hroot⟩ := hc.root hx
  refine ⟨n, join, f, x', (hc.node (hout j (.inl rfl))).trans hn, hkind, hvalid, hfrag, ?_, hx',
    hne, ?_⟩
  · rw [build_of_plan hc.plan, hroot]
    exact hbuild
  · rw [hroot]
    exact hsettled.confined hs hx hc fun m hm ↦ hout m (.inr ⟨_, hbuild, hm⟩)

theorem Pending.confined {i c : FragmentId} (h : s.Pending i c) (hs : s.Coherent)
    (hc : s.Confined s' region i)
    (hout : ∀ z, s.fragment? c = some z → ∀ m, s.Below z.root m → ¬region m) :
    s'.Pending i c ∧ s'.fragment? c = s.fragment? c := by
  obtain ⟨z, hz, hparent, hpristine⟩ := h
  obtain ⟨children, hz', hsame⟩ := hc.fragment hz (.inr (hout z hz _ .refl))
  rw [hsame (hs.ne_parent hz hparent)] at hz'
  exact ⟨⟨z, hz', hparent, hpristine.confined hc (hout z hz)⟩, hz'.trans hz.symm⟩

/-- The region of a join that is split off is closed but for the fragment of the join. -/
theorem Coherent.enclosed_join (h : s.Coherent) {i : FragmentId} {j : NodeId}
    (hoff : s.SplitOff i j) : s.Enclosed (s.JoinRegion j) i where
  build {k b} hk hb := by
    rcases hk with rfl | ⟨c, hc, hk⟩
    · exact .inr ⟨b, hb, .refl⟩
    · exact .inr ⟨c, hc, hk.tail (child_of_build hb)⟩
  root {k n x} hk hn hx := by
    obtain ⟨m, _, f, z, hm, _, _, hfrag, hbuild, hz, _⟩ := hoff
    rcases hk with rfl | ⟨c, hc, hk⟩
    · obtain rfl := Option.some.inj (hn.symm.trans hm)
      exact .inl hfrag
    · obtain rfl := build_unique hc hbuild
      exact .inr (.inr ⟨z.root, hbuild, h.root_below hz hn hx hk⟩)

theorem Coherent.enclosed_joins (h : s.Coherent) {i : FragmentId} {js : List NodeId}
    (hoff : ∀ j ∈ js, s.SplitOff i j) : s.Enclosed (s.JoinsRegion js) i where
  build := by
    rintro k b ⟨j, hj, hk⟩ hb
    exact ⟨j, hj, (h.enclosed_join (hoff j hj)).build hk hb⟩
  root := by
    rintro k n x ⟨j, hj, hk⟩ hn hx
    exact ((h.enclosed_join (hoff j hj)).root hk hn hx).imp_right fun hx ↦ ⟨j, hj, hx⟩

/-- A fragment with another plan is a change at its root. -/
theorem confined_setPlan {c : FragmentId} {z : Fragment} (hz : s.fragment? c = some z)
    (hne : c ≠ o) (plan : PlanId) (cohort : CohortId) :
    s.Confined (s.setPlan c plan cohort) (s.Below z.root) o where
  plan := rfl
  node _ := rfl
  fragment {f x} hx hf := by
    have hfc : f ≠ c := by
      rintro rfl
      rcases hf with rfl | hout
      · exact hne rfl
      · obtain rfl := Option.some.inj (hx.symm.trans hz)
        exact hout .refl
    refine ⟨x.children, ?_, fun _ ↦ rfl⟩
    rw [fragment?_setPlan, if_neg hfc, hx]
  root hx := by
    obtain ⟨x', hx', hroot, _⟩ := fragment?_setPlan_new hx
    exact ⟨x', hx', hroot⟩
  destination hx hx' := by
    obtain ⟨x, hx₁, _, hdest⟩ := fragment?_setPlan_old hx'
    obtain rfl := Option.some.inj (hx.symm.trans hx₁)
    exact hdest
  new hx' := by
    obtain ⟨x, hx, _⟩ := fragment?_setPlan_old hx'
    exact .inl ⟨x, hx⟩

end Session

namespace Splitting

/-- The fragment `i` is to be split: nothing has been done below its root. -/
structure Due (st : Splitting) (top : NodeId) (i : FragmentId) (x : Fragment)
    (builds : Option CohortId) : Prop where
  progress : st.Progress top
  fragment : st.session.fragment? i = some x
  pristine : st.session.Pristine x.root
  clear : ¬st.session.Skipped x.root
  current : Current st.mark x builds

/-- A part of a split in a region that adds plans for the joins of the plan `p`. Outside the region
it may change the children of the fragment `i` only. -/
structure Course (st st' : Splitting) (top : NodeId) (i : FragmentId) (R : NodeId → Prop)
    (p : PlanId) (builds : Option CohortId) : Prop where
  progress : st'.Progress top
  confined : st.session.Confined st'.session R i
  staged : st'.session.Staged st.mark st'.mark p builds R

/-- All joins of a fragment that begins at `a`, and all joins below it, have been extracted. -/
structure Done (st st' : Splitting) (top : NodeId) (i : FragmentId) (a : NodeId) (p : PlanId)
    (builds : Option CohortId) : Prop extends
    st.Course st' top i (st.session.Below a) p builds where
  settled : st'.session.SettledBelow a

/-- The build side of the join `j` of the fragment `i` has become the root `x` of a plan, and
nothing has been done below it. -/
structure Cut (st st' : Splitting) (top : NodeId) (i : FragmentId) (j : NodeId) (cohort : CohortId)
    (x : Fragment) : Prop where
  progress : st'.Progress top
  confined : st.session.Confined st'.session (st.session.JoinRegion j) i
  build : st.session.Build j x.root
  fragment : st'.session.fragment? x.id = some x
  ne : x.id ≠ i
  pristine : st'.session.Pristine x.root
  join : ∃ n join, st'.session.node? j = some n ∧ n.kind = .join join ∧
    join.table.isValid = true ∧ n.fragment = i
  partitioning {y : Fragment} : st.session.fragment? i = some y → x.partitioning = y.partitioning
  plan : x.plan.val = st.mark.plan
  cohort : x.cohort = cohort
  mark : st'.mark = ⟨st.mark.plan + 1, st.mark.cohort⟩

/-- With some depth left, the recursion extracts all joins of a fragment that has not been split
yet. -/
def Settles (depth : Nat) (top : NodeId) : Prop :=
  ∀ (st st' : Splitting) (i : FragmentId) (x : Fragment) (builds : Option CohortId),
    st.Due top i x builds → Split.Runs (Split.extractAll depth i builds) st () st' →
      st.Done st' top i x.root x.plan builds

namespace Course

variable {st mid st' : Splitting} {top : NodeId} {i : FragmentId} {R R' : NodeId → Prop}
  {p : PlanId} {builds : Option CohortId} {x : Fragment}

theorem refl (h : st.Progress top) (hR : ∀ j, ¬R j) : st.Course st top i R p builds where
  progress := h
  confined := .refl _ _ _
  staged := .empty hR

/-- One part of a split after another one, in regions that have nothing in common. -/
theorem append (h : st.Course mid top i R p builds) (h' : mid.Course st' top i R' p builds)
    (hR : mid.session.Enclosed R i) (hdisjoint : ∀ m, R m → ¬R' m) (hx : Current st.mark x builds)
    (hp : x.plan = p)
    (hcross : builds = none → ∀ {j j' u u' v v'}, R j → R' j' → st'.session.Supplied j u v →
      st'.session.Supplied j' u' v' → ¬st'.session.Below u.root j' ∧ ¬st'.session.Below u'.root j) :
    st.Course st' top i (fun j ↦ R j ∨ R' j) p builds where
  progress := h'.progress
  confined := (h.confined.mono fun _ ↦ .inl).trans (h'.confined.mono fun _ ↦ .inr)
  staged := by
    refine (h.staged.congr h'.confined.plan fun hj ↦ ?_).append h'.staged hx hp hcross
    exact h.progress.supplied_iff h'.progress hR h'.confined hdisjoint hj

theorem region (h : st.Course st' top i R p builds) (hsub : ∀ j, R j → R' j)
    (hs : ∀ {j u v}, R' j → st'.session.Supplied j u v → R j) :
    st.Course st' top i R' p builds where
  progress := h.progress
  confined := h.confined.mono hsub
  staged := h.staged.region hsub hs

end Course

namespace Progress

variable {st mid st' : Splitting} {top : NodeId} {i : FragmentId} {y : Fragment}

/-- One extraction. -/
theorem of_extract (h : st.Progress top) (hy : st.session.fragment? i = some y) {j : NodeId}
    (hready : st.session.Ready i j) {cohort : CohortId} (hcohort : cohort.isValid = true)
    {f : FragmentId} (hrun : Split.Runs (Split.extract j cohort) st f mid) :
    ∃ x, x.id = f ∧ st.Cut mid top i j cohort x := by
  obtain ⟨n, join, hn, hkind, htable, rfl, _, hpristine⟩ := hready
  obtain ⟨side, _, _, _, _, _, hside, _⟩ := Split.steps_of_extract hrun
  obtain ⟨hb, _⟩ := Split.buildSide_eq_ok hn hside
  have hbuild := (Session.build_iff hn).mpr hb
  obtain ⟨x, inputs, rfl, hroot, hxcohort, hextracts⟩ :=
    h.extracts hn hkind htable hb (hpristine _ hbuild) hcohort hrun
  have he := hextracts.session
  refine ⟨x.rehomed x.id inputs, Fragment.rehomed_id, ?_⟩
  constructor
  case progress => exact hextracts.progress h
  case confined => exact he.confined h.coherent hy
  case build =>
    rw [Fragment.rehomed_root, hroot]
    exact hbuild
  case fragment =>
    rw [Fragment.rehomed_id]
    exact he.cut
  case ne =>
    rw [Fragment.rehomed_id]
    exact (he.parted.id_ne hy).symm
  case pristine =>
    rw [Fragment.rehomed_root, hroot]
    intro j' m' join' hbelow hm' hkind'
    rw [Session.below_of_plan he.plan] at hbelow
    rcases he.node_cases hm' with ⟨rfl, _⟩ | ⟨_, m, hm, hsame, _⟩
    · exact absurd hbelow (h.coherent.tree.not_below_child (Session.child_of_build hbuild))
    · exact hpristine _ hbuild j' m join' hbelow hm (hsame.symm.trans hkind')
  case join =>
    refine ⟨_, _, he.tabled, rfl, ?_, rfl⟩
    rw [h.tables_peek]
    exact Id.isValid_ofNat _
  case partitioning =>
    intro y' hy'
    obtain ⟨z, hz, hpartitioning⟩ := hextracts.partitioning
    obtain rfl := Option.some.inj (hy'.symm.trans hz)
    rw [Fragment.rehomed_partitioning, hpartitioning]
  case plan =>
    rw [Fragment.rehomed_plan, hextracts.plan]
    rfl
  case cohort => rw [Fragment.rehomed_cohort, hxcohort]
  case mark =>
    rw [mark, hextracts.plans, hextracts.cohorts]
    rfl

/-- A fragment does not begin below the build side of one of its joins. -/
theorem not_below_of_ready (h : st.Progress top) (hy : st.session.fragment? i = some y)
    {j b : NodeId} (hready : st.session.Ready i j) (hb : st.session.Build j b) :
    ¬st.session.Below b y.root := by
  obtain ⟨n, _, hn, _, _, rfl, _⟩ := hready
  intro hbelow
  exact h.coherent.tree.not_below_child (Session.child_of_build hb)
    (hbelow.trans (h.coherent.below_root hn hy))

/-- The plan that a build side becomes is to be split. -/
theorem due_of_cut (h : st.Progress top) {j : NodeId} (hready : st.session.Ready i j)
    {cohort : CohortId} (hy : Current st.mark y (some cohort)) {x : Fragment}
    (hcut : st.Cut mid top i j cohort x) : mid.Due top x.id x none where
  progress := hcut.progress
  fragment := hcut.fragment
  pristine := hcut.pristine
  clear := by
    obtain ⟨n, join, hn, hkind, _, _, hskipped, _⟩ := hready
    rw [Session.skipped_of_plan hcut.confined.plan]
    exact h.coherent.tree.not_skipped_of_build hn hkind ((Session.build_iff hn).mp hcut.build)
      hskipped
  current := by
    obtain ⟨_, _, hnext⟩ := hy.builds rfl
    refine ⟨?_, ?_, fun hc ↦ nomatch hc⟩
    · rw [hcut.plan, hcut.mark]
      exact Int.lt_succ _
    · rw [hcut.cohort, hcut.mark]
      exact hnext

variable {depth : Nat}

/-- One step of the loop over the joins of a fragment. An extraction and the split of the new plan
together change the region of the join only. -/
theorem of_join (hdepth : Settles depth top) (h : st.Progress top)
    (hy : st.session.fragment? i = some y) {j : NodeId} (hready : st.session.Ready i j)
    {cohort : CohortId} (hcurrent : Current st.mark y (some cohort))
    (hrun : Split.Runs (do
      let f ← Split.extract j cohort
      Split.extractAll depth f none) st () st') :
    st.Course st' top i (st.session.JoinRegion j) y.plan (some cohort) ∧
      st'.session.SplitOff i j := by
  obtain ⟨f, mid, hextract, hrest⟩ := Split.runs_bind.mp hrun
  obtain ⟨x, rfl, hcut⟩ := h.of_extract hy hready (hcurrent.builds rfl).1 hextract
  have hdone := hdepth _ _ _ _ none (h.due_of_cut hready hcurrent hcut) hrest
  have hbelow := Session.below_of_plan hcut.confined.plan
  have hc₂ : mid.session.Confined st'.session (st.session.JoinRegion j) i := by
    refine Session.Confined.mono (hdone.confined.change ?_ ?_) fun m hm ↦ ?_
    · intro z hz
      obtain rfl := Option.some.inj (hcut.fragment.symm.trans hz)
      exact ⟨hcut.ne, .refl⟩
    · intro z hz
      obtain ⟨w, hw, hroot⟩ := hcut.confined.root hy
      obtain rfl := Option.some.inj (hz.symm.trans hw)
      rw [hbelow, hroot]
      exact h.not_below_of_ready hy hready hcut.build
    · rw [hbelow] at hm
      exact .inr ⟨x.root, hcut.build, hm⟩
  have hc := hcut.confined.trans hc₂
  obtain ⟨n, join, hn, hkind, hvalid, hfrag⟩ := hcut.join
  have hnode : st'.session.node? j = some n := by
    apply (hdone.confined.node ?_).trans hn
    rw [hbelow]
    exact h.coherent.tree.not_below_child (Session.child_of_build hcut.build)
  obtain ⟨xs, hx', _⟩ := hdone.confined.fragment hcut.fragment (.inl rfl)
  have hbuild : st'.session.Build j x.root := by
    rw [Session.build_of_plan hc.plan]
    exact hcut.build
  refine ⟨⟨hdone.progress, hc, ?_⟩, n, join, x.id, { x with children := xs }, hnode, hkind, hvalid,
    hfrag, hbuild, hx', hcut.ne, hdone.settled⟩
  obtain ⟨ys, hy', _⟩ := hc.fragment hy (.inl rfl)
  have hsupplied : st'.session.Supplied j y.stem x.stem :=
    ⟨n, join, { y with children := ys }, x.id, { x with children := xs }, hnode, hkind, hvalid,
      hfrag ▸ hy', rfl, hx', rfl, hbuild⟩
  have hstaged := hdone.staged
  rw [hcut.mark, hbelow] at hstaged
  rw [← hcut.cohort] at hcurrent ⊢
  have hcons := hstaged.cons (v := x.stem) hdone.progress.coherent hsupplied
    (hcurrent.mono (.refl _) []) hcut.plan (hcut.partitioning (y := y) hy)
  refine hcons.region ?_ ?_
  · rintro m (rfl | hm)
    · exact .inl rfl
    · exact .inr ⟨x.root, hcut.build, hm⟩
  · rintro m u v (rfl | ⟨b, hb, hm⟩) _
    · exact .inl rfl
    · obtain rfl := Session.build_unique hb hcut.build
      exact .inr hm

/-- The loop over the joins of a fragment. -/
theorem of_joins (hdepth : Settles depth top) (h : st.Progress top)
    (hy : st.session.fragment? i = some y) {js : List NodeId} {builds : Option CohortId}
    {cohort : CohortId} (hbuilds : ∀ j ∈ js, builds = some cohort)
    (hcurrent : Current st.mark y builds) (hjs : js.Nodup)
    (hready : ∀ j ∈ js, st.session.Ready i j)
    (hapart : ∀ j ∈ js, ∀ j' ∈ js, j ≠ j' → st.session.Apart j j')
    (hrun : Split.Runs (js.forM fun j ↦ do
      let f ← Split.extract j cohort
      Split.extractAll depth f none) st () st') :
    st.Course st' top i (st.session.JoinsRegion js) y.plan builds ∧
      ∀ j ∈ js, st'.session.SplitOff i j := by
  induction js generalizing st y with
  | nil =>
    obtain rfl := Split.runs_forM_nil.mp hrun
    refine ⟨.refl h ?_, fun j hj ↦ absurd hj List.not_mem_nil⟩
    rintro m ⟨j, hj, _⟩
    exact absurd hj List.not_mem_nil
  | cons j js ih =>
    obtain ⟨hj, hjs⟩ := List.nodup_cons.mp hjs
    obtain ⟨mid, hstep, hrest⟩ := Split.runs_forM_cons.mp hrun
    obtain ⟨rfl, hbuilds⟩ := List.forall_mem_cons.mp hbuilds
    obtain ⟨hready₁, hready₂⟩ := List.forall_mem_cons.mp hready
    obtain ⟨hcourse, hoff⟩ := h.of_join hdepth hy hready₁ hcurrent hstep
    have hc := hcourse.confined
    obtain ⟨ys, hy₁, _⟩ := hc.fragment hy (.inl rfl)
    -- The regions of the other joins are as they were.
    have hout (m : NodeId) (hm : st.session.JoinRegion j m) : ¬st.session.JoinsRegion js m :=
      Session.not_joinsRegion h.coherent.tree hj
        (fun k hk ↦ hapart k (List.mem_cons_of_mem _ hk) j List.mem_cons_self) hm
    have hready' (j' : NodeId) (hmem : j' ∈ js) : mid.session.Ready i j' :=
      (hready₂ j' hmem).confined hc fun m hm' hm ↦ hout m hm ⟨j', hmem, hm'⟩
    have hapart' (j' : NodeId) (hmem : j' ∈ js) (j'' : NodeId) (hmem' : j'' ∈ js)
        (hne : j' ≠ j'') : mid.session.Apart j' j'' := by
      rw [Session.apart_of_plan hc.plan]
      exact hapart j' (List.mem_cons_of_mem _ hmem) j'' (List.mem_cons_of_mem _ hmem') hne
    obtain ⟨hcourse', hoff'⟩ := ih hcourse.progress hy₁ hbuilds
      (hcurrent.mono hcourse.staged.le ys) hjs hready' hapart' hrest
    rw [Session.joinsRegion_of_plan hc.plan] at hcourse'
    have henclosed := hcourse.progress.coherent.enclosed_join hoff
    rw [Session.joinRegion_of_plan hc.plan] at henclosed
    have happend := hcourse.append hcourse' henclosed hout hcurrent rfl fun hnone ↦ nomatch hnone
    refine ⟨happend.region ?_ ?_, fun j' hmem ↦ ?_⟩
    · rintro m (hm | ⟨j', hmem, hm⟩)
      · exact ⟨j, List.mem_cons_self, hm⟩
      · exact ⟨j', List.mem_cons_of_mem _ hmem, hm⟩
    · rintro m u v ⟨j', hmem, hm⟩ _
      rcases List.mem_cons.mp hmem with rfl | hmem
      · exact .inl hm
      · exact .inr ⟨j', hmem, hm⟩
    · rcases List.mem_cons.mp hmem with rfl | hmem
      · apply hoff.confined hcourse.progress.coherent hcourse'.confined
        intro m hm
        rw [Session.joinRegion_of_plan hc.plan] at hm
        exact hout m hm
      · exact hoff' j' hmem

/-! ## The fragments below -/

/-- The regions of two children of a fragment have nothing in common. -/
theorem children_disjoint (h : st.Progress top) {c d : FragmentId} {z w : Fragment}
    (hz : st.session.fragment? c = some z) (hw : st.session.fragment? d = some w)
    (hparent : z.parent = some i) (hparent' : w.parent = some i) (hne : c ≠ d) {m : NodeId}
    (hm : st.session.Below z.root m) : ¬st.session.Below w.root m := by
  have apart {c d : FragmentId} {z w : Fragment} (hz : st.session.fragment? c = some z)
      (hw : st.session.fragment? d = some w) (hparent : z.parent = some i)
      (hparent' : w.parent = some i) (hne : c ≠ d) : ¬st.session.Below z.root w.root := by
    intro hbelow
    obtain ⟨e, n, hn, _, hfrag, hchild⟩ := h.coherent.exists_exchange hw hparent'
    obtain ⟨y, hy, hyz, _⟩ := h.coherent.below_parent hz hparent
    have hroots : z.root ≠ w.root := fun heq ↦ hne (h.coherent.eq_of_root hz hw heq)
    have hze := h.coherent.tree.below_parent hbelow hroots hchild
    exact h.coherent.not_below_root hy hz hyz (h.coherent.ne_parent hz hparent) hn hfrag hze
  intro hm'
  rcases h.coherent.tree.total hm hm' with hzw | hwz
  · exact apart hz hw hparent hparent' hne hzw
  · exact apart hw hz hparent' hparent hne.symm hwz

/-- Giving a fragment below another one its plan leaves the split between two steps. -/
theorem setPlan (h : st.Progress top) {c : FragmentId} {z : Fragment}
    (hz : st.session.fragment? c = some z) (hparent : z.parent = some i) (plan : PlanId)
    (cohort : CohortId) :
    Progress { st with session := st.session.setPlan c plan cohort } top := by
  have hc : c ∉ st.roots := by
    intro hc
    obtain ⟨w, hw, hdest⟩ := h.mem_roots.mp hc
    obtain rfl := Option.some.inj (hz.symm.trans hw)
    cases (h.coherent.orphan hz hdest).symm.trans hparent
  refine ⟨h.coherent.setPlan c plan cohort, h.owned, h.nodup, ?_, ?_, h.top, ?_, ?_, ?_, h.tables,
    h.plans, h.cohorts⟩
  · intro f
    rw [h.mem_roots]
    constructor
    · rintro ⟨x, hx, hdest⟩
      obtain ⟨x', hx', _, hsame, _⟩ := Session.fragment?_setPlan_new hx
      exact ⟨x', hx', hsame.trans hdest⟩
    · rintro ⟨x', hx', hdest⟩
      obtain ⟨x, hx, _, hsame⟩ := Session.fragment?_setPlan_old hx'
      exact ⟨x, hx, hsame.symm.trans hdest⟩
  · obtain ⟨f, x, hf, hx, hroot⟩ := h.head
    obtain ⟨x', hx', hsame, _⟩ := Session.fragment?_setPlan_new hx
    exact ⟨f, x', hf, hx', hsame.trans hroot⟩
  · intro k f hk
    obtain ⟨x, j, n, join, keys, hx, hn, hkind, htable, hbuild, hkeys, hsink⟩ := h.build hk
    obtain ⟨x', hx', hroot, _, hsame⟩ := Session.fragment?_setPlan_new hx
    exact ⟨x', j, n, join, keys, hx', hn, hkind, htable, hroot ▸ hbuild, hkeys, hsame.trans hsink⟩
  · intro j n join hn hkind hvalid
    obtain ⟨k, f, x, hk, hf, hx, hbuild⟩ := h.tabled hn hkind hvalid
    obtain ⟨x', hx', hroot, _⟩ := Session.fragment?_setPlan_new hx
    exact ⟨k, f, x', hk, hf, hx', hroot ▸ hbuild⟩
  · intro k f x' hk hx'
    have hf : f ≠ c := by
      rintro rfl
      exact hc (List.mem_of_getElem? hk)
    have hget := Session.fragment?_setPlan st.session c plan cohort f
    rw [if_neg hf] at hget
    exact h.plan hk (hget.symm.trans hx')

/-- A child of a fragment is to be split once it has the plan and the cohort of the fragment. -/
theorem due_of_child (h : st.Progress top) {c : FragmentId} {z : Fragment}
    (hz : st.session.fragment? c = some z) (hparent : z.parent = some i)
    (hpristine : st.session.Pristine z.root) {builds : Option CohortId}
    (hcurrent : Current st.mark y builds) :
    Due { st with session := st.session.setPlan c y.plan y.cohort } top c
      { z with plan := y.plan, cohort := y.cohort } builds where
  progress := h.setPlan hz hparent _ _
  fragment := by
    apply (Session.fragment?_setPlan st.session c y.plan y.cohort c).trans
    rw [if_pos rfl, hz]
    rfl
  pristine := hpristine
  clear := by
    obtain ⟨e, n, hn, hkind, _, m, hm, hc⟩ := h.coherent.exists_exchange hz hparent
    obtain rfl := Option.some.inj (hn.symm.trans hm)
    exact h.coherent.tree.not_skipped_of_exchange hn hkind hc
  current := ⟨hcurrent.plan, hcurrent.cohort, hcurrent.builds⟩

/-- One step down to a child. -/
theorem of_child (hdepth : Settles depth top) (h : st.Progress top)
    (hy : st.session.fragment? i = some y) {c : FragmentId} {z : Fragment}
    (hz : st.session.fragment? c = some z) (hparent : z.parent = some i)
    (hpristine : st.session.Pristine z.root) {builds : Option CohortId}
    (hcurrent : Current st.mark y builds)
    (hrun : Split.Runs (do
      let _ ← Split.ask fun s ↦ s.fragment c
      Split.update fun s ↦ s.setPlan c y.plan y.cohort
      Split.extractAll depth c builds) st () st') :
    st.Course st' top i (st.session.Below z.root) y.plan builds ∧
      st'.session.SettledBelow z.root ∧
      ∃ children, st'.session.fragment? c =
        some { z with plan := y.plan, cohort := y.cohort, children } := by
  simp only [Split.runs_bind] at hrun
  obtain ⟨_, _, hask, _, _, hupdate, hbelow⟩ := hrun
  obtain ⟨_, rfl⟩ := Split.runs_ask.mp hask
  obtain rfl := Split.runs_update.mp hupdate
  obtain ⟨w, hw, hyz, hlt⟩ := h.coherent.below_parent hz hparent
  obtain rfl := Option.some.inj (hy.symm.trans hw)
  have hne : c ≠ i := h.coherent.ne_parent hz hparent
  have hset := Session.confined_setPlan hz hne y.plan y.cohort
  have hdue := h.due_of_child hz hparent hpristine hcurrent
  have hdone := hdepth _ _ _ _ _ hdue hbelow
  obtain ⟨children, hchild, _⟩ := hdone.confined.fragment hdue.fragment (.inl rfl)
  refine ⟨⟨hdone.progress, hset.trans (hdone.confined.change ?_ ?_), hdone.staged⟩,
    hdone.settled, children, hchild⟩
  · intro x hx
    obtain rfl := Option.some.inj (hdue.fragment.symm.trans hx)
    exact ⟨hne, .refl⟩
  · intro x hx hzy
    obtain ⟨w, hw, hroot⟩ := hset.root hy
    obtain rfl := Option.some.inj (hx.symm.trans hw)
    rw [hroot] at hzy
    have hle : y.root.val ≤ z.root.val := h.coherent.tree.le_of_below hzy
    omega

/-- What is below a child is not below the other ones. -/
theorem not_belowRoots (h : st.Progress top) {c : FragmentId} {z : Fragment}
    (hz : st.session.fragment? c = some z) (hparent : z.parent = some i) {cs : List FragmentId}
    (hcs : c ∉ cs) (hpending : ∀ d ∈ cs, st.session.Pending i d) {m : NodeId}
    (hm : st.session.Below z.root m) : ¬st.session.BelowRoots cs m := by
  rintro ⟨d, hd, w, hw, hwm⟩
  have hne : c ≠ d := by
    rintro rfl
    exact hcs hd
  obtain ⟨w', hw', hparent', _⟩ := hpending d hd
  obtain rfl := Option.some.inj (hw.symm.trans hw')
  exact h.children_disjoint hz hw hparent hparent' hne hm hwm

/-- The loop over the children of a fragment. -/
theorem of_children (hdepth : Settles depth top) (h : st.Progress top)
    (hy : st.session.fragment? i = some y) {builds : Option CohortId}
    (hcurrent : Current st.mark y builds) {cs : List FragmentId} (hcs : cs.Nodup)
    (hchildren : ∀ c ∈ cs, st.session.Pending i c)
    (hrun : Split.Runs (cs.forM fun c ↦ do
      let _ ← Split.ask fun s ↦ s.fragment c
      Split.update fun s ↦ s.setPlan c y.plan y.cohort
      Split.extractAll depth c builds) st () st') :
    st.Course st' top i (st.session.BelowRoots cs) y.plan builds ∧
      ∀ c ∈ cs, ∀ z, st.session.fragment? c = some z → st'.session.SettledBelow z.root ∧
        ∃ children, st'.session.fragment? c =
          some { z with plan := y.plan, cohort := y.cohort, children } := by
  induction cs generalizing st y with
  | nil =>
    obtain rfl := Split.runs_forM_nil.mp hrun
    refine ⟨.refl h ?_, fun c hc ↦ absurd hc List.not_mem_nil⟩
    rintro m ⟨c, hc, _⟩
    exact absurd hc List.not_mem_nil
  | cons c cs ih =>
    obtain ⟨hc, hcs⟩ := List.nodup_cons.mp hcs
    obtain ⟨mid, hstep, hrest⟩ := Split.runs_forM_cons.mp hrun
    obtain ⟨⟨z, hz, hparent, hpristine⟩, hothers⟩ := List.forall_mem_cons.mp hchildren
    obtain ⟨hcourse, hsettled, children, hz₁⟩ :=
      h.of_child hdepth hy hz hparent hpristine hcurrent hstep
    have hc₁ := hcourse.confined
    have hbelow := Session.below_of_plan hc₁.plan
    obtain ⟨ys, hy₁, _⟩ := hc₁.fragment hy (.inl rfl)
    have hout (m : NodeId) (hm : st.session.Below z.root m) : ¬st.session.BelowRoots cs m :=
      h.not_belowRoots hz hparent hc hothers hm
    have hkept (d : FragmentId) (hd : d ∈ cs) := (hothers d hd).confined h.coherent hc₁
      fun w hw m hwm hm ↦ hout m hm ⟨d, hd, w, hw, hwm⟩
    have hsame (d : FragmentId) (hd : d ∈ cs) := (hkept d hd).2
    obtain ⟨hcourse', hsettled'⟩ := ih (y := { y with children := ys }) hcourse.progress hy₁
      (hcurrent.mono hcourse.staged.le ys) hcs (fun d hd ↦ (hkept d hd).1) hrest
    rw [Session.belowRoots_congr hc₁.plan hsame] at hcourse'
    have hc' := hcourse'.confined
    have hbelow' := Session.below_of_plan (hc'.plan.trans hc₁.plan)
    obtain ⟨ds, hz', _⟩ := hc'.fragment hz₁ (.inr (hout _ .refl))
    have henclosed : mid.session.Enclosed (st.session.Below z.root) i := by
      rw [← hbelow]
      exact hcourse.progress.coherent.enclosed_below hz₁ i
    -- Neither of two joins below different children is below the fragment of the other one.
    have hcross {j j' : NodeId} {u u' v v' : Fragment} (hj : st.session.Below z.root j)
        (hj' : st.session.BelowRoots cs j') (hs : st'.session.Supplied j u v)
        (hs' : st'.session.Supplied j' u' v') :
        ¬st'.session.Below u.root j' ∧ ¬st'.session.Below u'.root j := by
      have hzj' : ¬st.session.Below z.root j' := fun hin ↦ hout j' hin hj'
      obtain ⟨d, hd, w, hw, hwj'⟩ := hj'
      have hwj : ¬st.session.Below w.root j := fun hin ↦ hout j hj ⟨d, hd, w, hw, hin⟩
      obtain ⟨_, es, hw'⟩ := hsettled' d hd w ((hsame d hd).trans hw)
      rw [← hbelow'] at hj hzj' hwj hwj'
      have hcoherent' := hcourse'.progress.coherent
      exact ⟨hs.not_below hcoherent' hz' hj hzj', hs'.not_below hcoherent' hw' hwj' hwj⟩
    have happend := hcourse.append hcourse' henclosed hout hcurrent rfl fun _ ↦ hcross
    refine ⟨happend.region ?_ ?_, fun d hd w hw ↦ ?_⟩
    · rintro m (hm | ⟨d, hd, hm⟩)
      · exact ⟨c, List.mem_cons_self, z, hz, hm⟩
      · exact ⟨d, List.mem_cons_of_mem _ hd, hm⟩
    · rintro m u v ⟨d, hd, w, hw, hm⟩ _
      rcases List.mem_cons.mp hd with rfl | hd
      · obtain rfl := Option.some.inj (hz.symm.trans hw)
        exact .inl hm
      · exact .inr ⟨d, hd, w, hw, hm⟩
    · rcases List.mem_cons.mp hd with rfl | hd
      · obtain rfl := Option.some.inj (hz.symm.trans hw)
        refine ⟨?_, ds, hz'⟩
        exact hsettled.confined (z := { z with plan := y.plan, cohort := y.cohort, children })
          hcourse.progress.coherent hz₁ hc' fun m hm ↦ hout m (hbelow ▸ hm)
      · exact hsettled' d hd w ((hsame d hd).trans hw)

end Progress

end Splitting

end QueryPlanning
