import QueryPlanning.Proofs.Plan.Splits

/-!
# The recursion over a fragment

Once the joins of a fragment are extracted, every node below the fragment's root is in the fragment,
below one of its children or below one of the extracted build sides. The loops over the joins and
over the children therefore settle everything below the root, for any depth of the recursion.
-/

namespace QueryPlanning

namespace Splitting

/-- The joins that the fragment `i` looks for are split off, and no other join below its root has a
table, apart from those below their build sides. -/
structure Drained (st : Splitting) (top : NodeId) (i : FragmentId) (x : Fragment)
    (js : List NodeId) : Prop where
  progress : st.Progress top
  fragment : st.session.fragment? i = some x
  clear : ¬st.session.Skipped x.root
  joins {j : NodeId} : j ∈ js ↔ st.session.Reach Node.probed x.root j ∧
    ∃ n join, st.session.node? j = some n ∧ n.kind = .join join
  off : ∀ j ∈ js, st.session.SplitOff i j
  tabled {j : NodeId} {n : Node} {join : Join} : st.session.Below x.root j →
    st.session.node? j = some n → n.kind = .join join → join.table.isValid = true →
      st.session.JoinsRegion js j

variable {st st' : Splitting} {top : NodeId} {i : FragmentId} {x y : Fragment} {js : List NodeId}
  {builds builds' : Option CohortId}

namespace Progress

/-- The joins that are looked for in a fragment can be extracted. -/
theorem ready_of_mem_joins (h : st.Progress top) (hy : st.session.fragment? i = some y)
    (hpristine : st.session.Pristine y.root) (hclear : ¬st.session.Skipped y.root)
    (hjs : st.session.joins y.root = .ok js) {j : NodeId} (hj : j ∈ js) :
    st.session.Ready i j := by
  obtain ⟨hreach, n, join, hn, hkind⟩ := (Session.mem_joins hjs).mp hj
  have hin : st.session.Reach Node.inner y.root j := hreach.mono Node.probed_subset
  have hbelow : st.session.Below y.root j := hin.mono Node.inner_subset
  obtain ⟨m, hm, hfrag⟩ := h.coherent.root hy
  have howner := h.owned_of_pristine hpristine hm j n hin hn
  rw [hfrag] at howner
  refine ⟨n, join, hn, hkind, hpristine j n join hbelow hn hkind,
    (Node.owner?_eq_some.mp howner).1, h.coherent.tree.not_skipped_of_reach hclear hreach,
    fun b hb ↦ ?_⟩
  intro j' n' join' hbelow' hn' hkind'
  have hpath := (hbelow.tail (Session.child_of_build hb)).trans hbelow'
  exact hpristine j' n' join' hpath hn' hkind'

theorem apart_of_mem_joins (h : st.Progress top) {r : NodeId}
    (hjs : st.session.joins r = .ok js) {j j' : NodeId} (hj : j ∈ js) (hj' : j' ∈ js) :
    st.session.Apart j j' := by
  have outside {j j' : NodeId} (hj : j ∈ js) (hj' : j' ∈ js) (b : NodeId)
      (hb : st.session.Build j b) : ¬st.session.Below b j' := by
    obtain ⟨hreach, n, join, hn, hkind⟩ := (Session.mem_joins hjs).mp hj
    obtain ⟨hreach', _⟩ := (Session.mem_joins hjs).mp hj'
    exact h.coherent.tree.not_below_build hreach' hreach hn hkind ((Session.build_iff hn).mp hb)
  exact ⟨outside hj hj', outside hj' hj⟩

/-- No node of a fragment is below the build side of one of its joins that is split off. -/
theorem not_below_splitOff (h : st.Progress top) (hx : st.session.fragment? i = some x)
    {j b : NodeId} (hoff : st.session.SplitOff i j) (hb : st.session.Build j b) {m : NodeId}
    {n : Node} (hn : st.session.node? m = some n) (hfrag : n.fragment = i) :
    ¬st.session.Below b m := by
  obtain ⟨n', join, f, w, hn', _, _, rfl, hbuild, hw, hne, _⟩ := hoff
  obtain rfl := Session.build_unique hb hbuild
  have hroot := (h.coherent.below_root hn' hx).tail (Session.child_of_build hbuild)
  exact h.coherent.not_below_root hx hw hroot hne hn hfrag

/-- The region of a join that is split off and that of a child of the fragment have nothing in
common. -/
theorem child_apart (h : st.Progress top) {z : Fragment} (hx : st.session.fragment? i = some x)
    {c : FragmentId} (hz : st.session.fragment? c = some z) (hparent : z.parent = some i)
    {j : NodeId} (hoff : st.session.SplitOff i j) {m : NodeId}
    (hm : st.session.JoinRegion j m) : ¬st.session.Below z.root m := by
  obtain ⟨e, q, hq, hexchange, hfrag, hchild⟩ := h.coherent.exists_exchange hz hparent
  obtain ⟨y, hy, hxz, _⟩ := h.coherent.below_parent hz hparent
  obtain rfl := Option.some.inj (hx.symm.trans hy)
  have hoff' := hoff
  obtain ⟨n, join, _, _, hn, hkind, _, hfrag', _⟩ := hoff'
  have hne := h.coherent.ne_parent hz hparent
  have houtside : ¬st.session.Below z.root j := h.coherent.not_below_root hx hz hxz hne hn hfrag'
  rcases hm with rfl | ⟨b, hb, hbm⟩
  · exact houtside
  · intro hzm
    by_cases heq : b = z.root
    · subst heq
      obtain rfl := h.coherent.tree.unique hchild (Session.child_of_build hb)
      obtain rfl := Option.some.inj (hn.symm.trans hq)
      cases hkind.symm.trans hexchange
    · rcases h.coherent.tree.total hbm hzm with hbz | hzb
      · have hbe := h.coherent.tree.below_parent hbz heq hchild
        exact h.not_below_splitOff hx hoff hb hq hfrag hbe
      · have hchild' := Session.child_of_build hb
        exact houtside (h.coherent.tree.below_parent hzb (Ne.symm heq) hchild')

/-- What is below a settled build side has the plan and the cohort of its parent: the fragment that
begins there has none, since a join is above it and no exchange. -/
theorem inherits_of_splitOff (h : st.Progress top) {j b : NodeId}
    (hoff : st.session.SplitOff i j) (hb : st.session.Build j b) {f g : FragmentId}
    {w v : Fragment} (hw : st.session.fragment? f = some w) (hbelow : st.session.Below b w.root)
    (hparent : w.parent = some g) (hv : st.session.fragment? g = some v) :
    w.plan = v.plan ∧ w.cohort = v.cohort := by
  obtain ⟨n, join, k, u, hn, hkind, _, _, hbuild, hu, _, hsettled⟩ := hoff
  obtain rfl := Session.build_unique hb hbuild
  by_cases hroot : w.root = u.root
  · obtain ⟨e, q, hq, hkind', _, hchild⟩ := h.coherent.exists_exchange hw hparent
    rw [hroot] at hchild
    obtain rfl := h.coherent.tree.unique hchild (Session.child_of_build hb)
    obtain rfl := Option.some.inj (hn.symm.trans hq)
    cases hkind.symm.trans hkind'
  · exact hsettled.inherits hw hbelow hroot hparent hv

/-- A child of a fragment begins below the root of the fragment. -/
theorem below_child (h : st.Progress top) (hx : st.session.fragment? i = some x)
    {c : FragmentId} (hc : c ∈ x.children) :
    ∃ z, st.session.fragment? c = some z ∧ z.parent = some i ∧
      st.session.Below x.root z.root := by
  obtain ⟨z, hz, hparent⟩ :=
    Session.fragment?_of_parent? ((h.coherent.linked.mem_children hx).mp hc)
  obtain ⟨y, hy, hxz, _⟩ := h.coherent.below_parent hz hparent
  obtain rfl := Option.some.inj (hx.symm.trans hy)
  exact ⟨z, hz, hparent, hxz⟩

theorem belowRoots_below (h : st.Progress top) (hx : st.session.fragment? i = some x)
    {m : NodeId} (hm : st.session.BelowRoots x.children m) : st.session.Below x.root m := by
  obtain ⟨c, hmem, z, hz, hzm⟩ := hm
  obtain ⟨w, hw, _, hxw⟩ := h.below_child hx hmem
  obtain rfl := Option.some.inj (hz.symm.trans hw)
  exact hxw.trans hzm

/-- No node of a fragment is below a child of the fragment. -/
theorem not_below_children (h : st.Progress top) (hx : st.session.fragment? i = some x)
    {m : NodeId} {n : Node} (hn : st.session.node? m = some n) (hfrag : n.fragment = i) :
    ¬st.session.BelowRoots x.children m := by
  rintro ⟨c, hmem, z, hz, hzm⟩
  obtain ⟨w, hw, hparent, hxw⟩ := h.below_child hx hmem
  obtain rfl := Option.some.inj (hz.symm.trans hw)
  exact h.coherent.not_below_root hx hz hxw (h.coherent.ne_parent hz hparent) hn hfrag hzm

theorem not_joinRegion_children (h : st.Progress top) (hx : st.session.fragment? i = some x)
    {j : NodeId} (hoff : st.session.SplitOff i j) {m : NodeId} (hm : st.session.JoinRegion j m) :
    ¬st.session.BelowRoots x.children m := by
  rintro ⟨c, hmem, z, hz, hzm⟩
  obtain ⟨w, hw, hparent, _⟩ := h.below_child hx hmem
  obtain rfl := Option.some.inj (hz.symm.trans hw)
  exact h.child_apart hx hz hparent hoff hm hzm

/-- The loop over the joins of a fragment does not touch what is below its children. -/
theorem pending_child (h : st.Progress top) {s : Session} {o : FragmentId}
    (hx : st.session.fragment? i = some x) (hpristine : s.Pristine x.root)
    (hc : s.Confined st.session (s.JoinsRegion js) o)
    (hoff : ∀ j ∈ js, st.session.SplitOff i j) {c : FragmentId} (hmem : c ∈ x.children) :
    st.session.Pending i c := by
  obtain ⟨z, hz, hparent, hxz⟩ := h.below_child hx hmem
  rw [Session.below_of_plan hc.plan] at hxz
  have hpristine' : s.Pristine z.root := by
    intro j n join hj
    exact hpristine j n join (hxz.trans hj)
  refine ⟨z, hz, hparent, hpristine'.confined hc ?_⟩
  rintro m hm ⟨j, hj, hregion⟩
  rw [← Session.joinRegion_of_plan hc.plan] at hregion
  rw [← Session.below_of_plan hc.plan] at hm
  exact h.child_apart hx hz hparent (hoff j hj) hregion hm

end Progress

/-- The regions of the joins of a fragment are below its root. -/
theorem joinsRegion_below {s : Session} {r : NodeId} (hjs : s.joins r = .ok js) {m : NodeId}
    (hm : s.JoinsRegion js m) : s.Below r m := by
  obtain ⟨j, hj, hregion⟩ := hm
  have hrj : s.Below r j :=
    ((Session.mem_joins hjs).mp hj).1.mono fun n ↦ (Node.probed_sublist n).subset
  rcases hregion with rfl | ⟨b, hb, hbm⟩
  · exact hrj
  · exact (hrj.tail (Session.child_of_build hb)).trans hbm

namespace Drained

/-- What is below the root of the fragment is in the fragment, below a child of it, or below a build
side. The walk for joins comes to the nodes in the fragment that are not skipped. -/
theorem covered (h : st.Drained top i x js) {m : NodeId} {n : Node}
    (hm : st.session.Below x.root m) (hn : st.session.node? m = some n) :
    (n.fragment = i ∧ (st.session.Reach Node.probed x.root m ∨ st.session.Skipped m)) ∨
      st.session.BelowRoots x.children m ∨
        ∃ j ∈ js, ∃ b, st.session.Build j b ∧ st.session.Below b m := by
  have hp := h.progress
  induction hm generalizing n with
  | refl =>
    obtain ⟨n', hn', hfrag⟩ := hp.coherent.root h.fragment
    obtain rfl := Option.some.inj (hn.symm.trans hn')
    exact .inl ⟨hfrag, .inl .refl⟩
  | @tail p m hpath hstep ih =>
    obtain ⟨q, hq, hmem⟩ := hstep
    rcases ih hq with ⟨hfrag, hwalk⟩ | ⟨c, hc, z, hz, hbelow⟩ | ⟨j, hj, b, hb, hbelow⟩
    · rcases hp.edge hq hmem hn with hsame | hkind | ⟨join, hkind, hvalid, hbuild⟩
      · have hinner := hp.coherent.inner_of_same hq hmem hn hsame (hp.owned hq)
        refine .inl ⟨hsame.symm.trans hfrag, ?_⟩
        rcases hwalk with hreach | hskipped
        · rcases Node.inner_cases hinner with hprobed | hskip | ⟨join, hkind, hbuild⟩
          · exact .inl (hreach.tail ⟨q, hq, hprobed⟩)
          · exact .inr (.of_step ⟨q, hq, hskip⟩)
          · have hoff := h.off p (h.joins.mpr ⟨hreach, q, join, hq, hkind⟩)
            have hb := (Session.build_iff hq).mpr hbuild
            have hfrag' := hsame.symm.trans hfrag
            exact absurd .refl (hp.not_below_splitOff h.fragment hoff hb hn hfrag')
        · exact .inr (hskipped.tail ⟨q, hq, hinner⟩)
      · right
        left
        obtain ⟨z, _, _, hz, hchildren, _, _, hparent⟩ := hp.coherent.exchange hq hkind
        have howner : q.owner? = some i :=
          Node.owner?_eq_some.mpr ⟨hfrag, hp.coherent.ordered.ne_invalid h.fragment⟩
        rw [howner] at hparent
        rw [hchildren, List.mem_singleton] at hmem
        have hparent' := (Session.parent?_eq hz).trans hparent
        exact ⟨_, (hp.coherent.linked.mem_children h.fragment).mpr hparent', z, hz, hmem ▸ .refl⟩
      · obtain ⟨j, hj, hregion⟩ := h.tabled hpath hq hkind hvalid
        right
        right
        rcases hregion with rfl | ⟨b, hb, hbp⟩
        · exact ⟨p, hj, m, (Session.build_iff hq).mpr hbuild, .refl⟩
        · exact absurd hbp (hp.not_below_splitOff h.fragment (h.off j hj) hb hq hfrag)
    · exact .inr (.inl ⟨c, hc, z, hz, hbelow.tail ⟨q, hq, hmem⟩⟩)
    · exact .inr (.inr ⟨j, hj, b, hb, hbelow.tail ⟨q, hq, hmem⟩⟩)

/-- A join in the fragment has a table unless it is skipped. -/
theorem tabled_iff (h : st.Drained top i x js) {j : NodeId} {n : Node} {join : Join}
    (hj : st.session.Below x.root j) (hn : st.session.node? j = some n)
    (hkind : n.kind = .join join) (hfrag : n.fragment = i)
    (hwalk : st.session.Reach Node.probed x.root j ∨ st.session.Skipped j) :
    join.table.isValid = true ↔ ¬st.session.Skipped j := by
  have hp := h.progress
  have clear (hreach : st.session.Reach Node.probed x.root j) : ¬st.session.Skipped j :=
    hp.coherent.tree.not_skipped_of_reach h.clear hreach
  constructor
  · intro hvalid
    obtain ⟨k, hk, rfl | ⟨b, hb, hbj⟩⟩ := h.tabled hj hn hkind hvalid
    · exact clear (h.joins.mp hk).1
    · exact absurd hbj (hp.not_below_splitOff h.fragment (h.off k hk) hb hn hfrag)
  · intro hskipped
    have hreach := hwalk.resolve_right hskipped
    obtain ⟨n', join', _, _, hn', hkind', hvalid, _⟩ :=
      h.off j (h.joins.mpr ⟨hreach, n, join, hn, hkind⟩)
    obtain rfl := Option.some.inj (hn.symm.trans hn')
    obtain rfl := NodeKind.join.inj (hkind.symm.trans hkind')
    exact hvalid

/-- What the loops over the joins and over the children of a fragment settle is all that is below
its root. -/
theorem settled (h : st.Drained top i x js) (h' : st'.Progress top)
    (hc : st.session.Confined st'.session (st.session.BelowRoots x.children) i)
    (hchildren : ∀ c ∈ x.children, ∀ z, st.session.fragment? c = some z →
      st'.session.SettledBelow z.root ∧ ∃ children,
        st'.session.fragment? c = some { z with plan := x.plan, cohort := x.cohort, children }) :
    st'.session.SettledBelow x.root := by
  have hp := h.progress
  have hbelow := Session.below_of_plan hc.plan
  have kept {m : NodeId} {n n' : Node} (hn : st.session.node? m = some n) (hfrag : n.fragment = i)
      (hn' : st'.session.node? m = some n') : n' = n := by
    rw [hc.node (hp.not_below_children h.fragment hn hfrag), hn] at hn'
    exact (Option.some.inj hn').symm
  have off {j : NodeId} (hj : j ∈ js) : st'.session.SplitOff i j :=
    (h.off j hj).confined hp.coherent hc fun m ↦ hp.not_joinRegion_children h.fragment (h.off j hj)
  constructor
  case inherits =>
    intro f g w y hw hin hne hparent hy
    obtain ⟨n', hn', hfrag'⟩ := h'.coherent.root hw
    obtain ⟨n, hn, _⟩ := Session.exists_node?_of_plan hc.plan.symm hn'
    obtain ⟨children, hx', _⟩ := hc.fragment h.fragment (.inl rfl)
    rw [hbelow] at hin
    rcases h.covered hin hn with ⟨hfrag, _⟩ | ⟨c, hmem, z, hz, hzw⟩ | ⟨j, hj, b, hb, hbw⟩
    · obtain rfl := kept hn hfrag hn'
      rw [hfrag] at hfrag'
      subst hfrag'
      obtain rfl := Option.some.inj (hw.symm.trans hx')
      exact absurd rfl hne
    · obtain ⟨hsettled, ds, hz'⟩ := hchildren c hmem z hz
      by_cases hroot : w.root = z.root
      · have hfc := h'.coherent.eq_of_root hw hz' hroot
        subst hfc
        obtain rfl := Option.some.inj (hw.symm.trans hz')
        have hparent' := (hp.coherent.linked.mem_children h.fragment).mp hmem
        rw [Session.parent?_eq hz] at hparent'
        obtain rfl := Option.some.inj (hparent.symm.trans hparent')
        obtain rfl := Option.some.inj (hy.symm.trans hx')
        exact ⟨rfl, rfl⟩
      · rw [← hbelow] at hzw
        exact hsettled.inherits hw hzw hroot hparent hy
    · rw [← Session.build_of_plan hc.plan] at hb
      rw [← hbelow] at hbw
      exact h'.inherits_of_splitOff (off hj) hb hw hbw hparent hy
  case tabled =>
    intro j n' join hin hn' hkind
    obtain ⟨n, hn, _⟩ := Session.exists_node?_of_plan hc.plan.symm hn'
    rw [hbelow] at hin
    rcases h.covered hin hn with ⟨hfrag, hwalk⟩ | ⟨c, hmem, z, hz, hzj⟩ | ⟨k, hk, b, hb, hbj⟩
    · obtain rfl := kept hn hfrag hn'
      rw [Session.skipped_of_plan hc.plan]
      exact h.tabled_iff hin hn hkind hfrag hwalk
    · rw [← hbelow] at hzj
      exact (hchildren c hmem z hz).1.tabled hzj hn' hkind
    · obtain ⟨m, _, _, w, _, _, _, _, hbuild, _, _, hsettled⟩ := off hk
      rw [← Session.build_of_plan hc.plan] at hb
      obtain rfl := Session.build_unique hb hbuild
      rw [← hbelow] at hbj
      exact hsettled.tabled hbj hn' hkind

end Drained

namespace Due

/-- The fragment has its plan and cohort, and a cohort for the plans that feed its joins is allotted
if it has any. -/
theorem of_cohortOf (h : st.Due top i x builds)
    (hrun : Split.Runs (Split.cohortOf js builds) st builds' st') :
    st'.Due top i x builds' ∧ st'.session = st.session ∧
      (∀ j ∈ js, builds' = some (builds'.getD .invalid)) ∧
      ((st' = st ∧ builds' = builds) ∨
        (js ≠ [] ∧ builds = none ∧ builds' = some st.cohorts.peek ∧
          st'.mark = ⟨st.mark.plan, st.mark.cohort + 1⟩)) := by
  unfold Split.cohortOf at hrun
  split at hrun
  · obtain ⟨rfl, rfl⟩ := Split.runs_pure.mp hrun
    exact ⟨h, rfl, fun j hj ↦ absurd hj List.not_mem_nil, .inl ⟨rfl, rfl⟩⟩
  · obtain ⟨rfl, rfl⟩ := Split.runs_pure.mp hrun
    exact ⟨h, rfl, fun _ _ ↦ rfl, .inl ⟨rfl, rfl⟩⟩
  · rename_i hjs
    obtain ⟨c, hcohort, rfl⟩ := Split.runs_map.mp hrun
    obtain ⟨rfl, rfl⟩ := Split.runs_takeCohort.mp hcohort
    have hcohorts := h.progress.cohorts
    refine ⟨?_, rfl, fun _ _ ↦ rfl, .inr ⟨fun hnil ↦ hjs hnil, rfl, rfl, rfl⟩⟩
    constructor
    case progress =>
      refine { h.progress with cohorts := ?_ }
      rw [IdSource.take_snd_next]
      omega
    case fragment => exact h.fragment
    case pristine => exact h.pristine
    case clear => exact h.clear
    case current =>
      have hlt := h.current.cohort
      refine ⟨h.current.plan, hlt.trans (Int.lt_succ _), ?_⟩
      rintro c ⟨⟩
      exact ⟨decide_eq_true hcohorts, hlt, Int.lt_succ _⟩

variable {depth : Nat}

/-- The loop over the joins of a fragment splits all of them off. -/
theorem joins (hdepth : Settles depth top) (h : st.Due top i x builds)
    (hjs : st.session.joins x.root = .ok js) {cohort : CohortId}
    (hbuilds : ∀ j ∈ js, builds = some cohort)
    (hrun : Split.Runs (js.forM fun j ↦ do
      let f ← Split.extract j cohort
      Split.extractAll depth f none) st () st') :
    st.Course st' top i (st.session.JoinsRegion js) x.plan builds ∧
      ∃ children, st'.Drained top i { x with children } js := by
  have hp := h.progress
  obtain ⟨hcourse, hoff⟩ := hp.of_joins hdepth h.fragment hbuilds h.current
    (Session.nodup_joins hp.coherent.tree hjs)
    (fun j ↦ hp.ready_of_mem_joins h.fragment h.pristine h.clear hjs)
    (fun j hj j' hj' _ ↦ hp.apart_of_mem_joins hjs hj hj') hrun
  have hplan := hcourse.confined.plan
  obtain ⟨children, hx', _⟩ := hcourse.confined.fragment h.fragment (.inl rfl)
  refine ⟨hcourse, children, hcourse.progress, hx', ?_, Session.mem_joins_of_plan hplan hjs,
    hoff, ?_⟩
  · rw [Session.skipped_of_plan hplan]
    exact h.clear
  · -- A join with a table has got it in the loop.
    intro j n join hj hn hkind hvalid
    rw [Session.joinsRegion_of_plan hplan]
    by_contra hout
    rw [hcourse.confined.node hout] at hn
    rw [Session.below_of_plan hplan] at hj
    rw [h.pristine j n join hj hn hkind] at hvalid
    cases hvalid

/-- What a part of a split does below the root of the fragment is all that is done there. -/
theorem course_below (h : st.Due top i x builds) {R : NodeId → Prop} {p : PlanId}
    (hcourse : st.Course st' top i R p builds) (hR : ∀ j, R j → st.session.Below x.root j) :
    st.Course st' top i (st.session.Below x.root) p builds := by
  refine hcourse.region hR ?_
  intro j u v hj hs
  obtain ⟨n, join, _, _, _, hn, hkind, hvalid, _⟩ := hs
  by_contra hout
  rw [hcourse.confined.node hout] at hn
  rw [h.pristine j n join hj hn hkind] at hvalid
  cases hvalid

/-- The loop over the children follows the loop over the joins. -/
theorem children (hdepth : Settles depth top) (h : st.Due top i x builds)
    (hjs : st.session.joins x.root = .ok js) (hbuilds : js ≠ [] → builds ≠ none)
    {mid : Splitting} {cs : List FragmentId}
    (hcourse : st.Course mid top i (st.session.JoinsRegion js) x.plan builds)
    (hdrained : mid.Drained top i { x with children := cs } js)
    (hrun : Split.Runs (cs.forM fun c ↦ do
      let _ ← Split.ask fun s ↦ s.fragment c
      Split.update fun s ↦ s.setPlan c x.plan x.cohort
      Split.extractAll depth c builds) mid () st') :
    st.Done st' top i x.root x.plan builds ∧ ∀ j ∈ js, st'.session.SplitOff i j := by
  have hp := hdrained.progress
  have hplan := hcourse.confined.plan
  obtain ⟨hcourse', hsettled⟩ := hp.of_children hdepth hdrained.fragment
    (h.current.mono hcourse.staged.le cs) (hp.coherent.linked.nodup hdrained.fragment)
    (fun c ↦ hp.pending_child hdrained.fragment h.pristine hcourse.confined hdrained.off) hrun
  have hapart (j : NodeId) (hj : j ∈ js) (m : NodeId) (hm : mid.session.JoinRegion j m) :
      ¬mid.session.BelowRoots cs m :=
    hp.not_joinRegion_children hdrained.fragment (hdrained.off j hj) hm
  have henclosed := hp.coherent.enclosed_joins hdrained.off
  rw [Session.joinsRegion_of_plan hplan] at henclosed
  have happend := hcourse.append hcourse' henclosed ?_ h.current rfl ?_
  · refine ⟨⟨h.course_below happend ?_, ?_⟩, fun j hj ↦ ?_⟩
    · rintro m (hm | hm)
      · exact joinsRegion_below hjs hm
      · rw [← Session.below_of_plan hplan]
        exact hp.belowRoots_below hdrained.fragment hm
    · exact hdrained.settled hcourse'.progress hcourse'.confined hsettled
    · exact (hdrained.off j hj).confined hp.coherent hcourse'.confined (hapart j hj)
  · rintro m ⟨j, hj, hm⟩
    rw [← Session.joinRegion_of_plan hplan] at hm
    exact hapart j hj m hm
  · rintro hnone j j' u u' v v' ⟨k, hk, _⟩
    exact absurd hnone (hbuilds (List.ne_nil_of_mem hk))

/-- A cohort that was allotted for the joins of the fragment is new. -/
theorem allot (h : st.Due top i x none) (hcohort : builds = some st.cohorts.peek) {mid : Splitting}
    (hmark : mid.mark = ⟨st.mark.plan, st.mark.cohort + 1⟩) (hsession : mid.session = st.session)
    (hdone : mid.Done st' top i x.root x.plan builds) {j : NodeId}
    (hj : st.session.Below x.root j) (hoff : st'.session.SplitOff i j) :
    st.Done st' top i x.root x.plan none := by
  obtain ⟨hcourse, hsettled⟩ := hdone
  obtain ⟨hprogress, hconfined, hstaged⟩ := hcourse
  rw [hsession] at hconfined hstaged
  rw [hmark, hcohort] at hstaged
  refine ⟨⟨hprogress, hconfined, ?_⟩, hsettled⟩
  obtain ⟨n, join, _, _, hn, hkind, hvalid, hfrag, _⟩ := hoff
  obtain ⟨children, hx', _⟩ := hconfined.fragment h.fragment (.inl rfl)
  obtain ⟨y, v, hy, hs⟩ := hprogress.exists_supplied hn hkind hvalid
  rw [hfrag] at hy
  obtain rfl := Option.some.inj (hx'.symm.trans hy)
  refine hstaged.allot rfl hj hs rfl h.current.plan fun k hk ↦ ?_
  rw [Session.below_of_plan hconfined.plan]
  exact hk

end Due

/-- The recursion over a fragment: its joins first, then its children as the joins have left
them. -/
theorem settles_succ {depth : Nat} (hdepth : Settles depth top) : Settles (depth + 1) top := by
  intro st st' i x builds h hrun
  unfold Split.extractAll at hrun
  simp only [Split.runs_bind] at hrun
  obtain ⟨js, _, askJoins, builds', mid, takeCohort, _, mid', joins, y, _, askFragment,
    children⟩ := hrun
  obtain ⟨hjs, rfl⟩ := Split.runs_ask.mp askJoins
  simp only [Outcome.bind_eq_ok, Session.fragment_eq_ok] at hjs
  obtain ⟨x', hx', hjs⟩ := hjs
  obtain rfl := Option.some.inj (h.fragment.symm.trans hx')
  obtain ⟨h₁, hsession, hbuilds, hallotted⟩ := h.of_cohortOf takeCohort
  have hjs₁ : mid.session.joins x.root = .ok js := hsession ▸ hjs
  obtain ⟨hcourse, cs, hdrained⟩ := h₁.joins hdepth hjs₁ hbuilds joins
  obtain ⟨hy, rfl⟩ := Split.runs_ask.mp askFragment
  rw [Session.fragment_eq_ok, hdrained.fragment] at hy
  obtain rfl := Option.some.inj hy
  have hsome (hne : js ≠ []) : builds' ≠ none := by
    obtain ⟨j, hj⟩ := List.exists_mem_of_ne_nil js hne
    exact Option.ne_none_iff_exists'.mpr ⟨_, hbuilds j hj⟩
  obtain ⟨hdone, hoff⟩ := h₁.children hdepth hjs₁ hsome hcourse hdrained children
  rcases hallotted with ⟨rfl, rfl⟩ | ⟨hne, rfl, hcohort, hmark⟩
  · exact hdone
  · obtain ⟨j, hj⟩ := List.exists_mem_of_ne_nil js hne
    have hreach := ((Session.mem_joins hjs).mp hj).1
    exact h.allot hcohort hmark hsession hdone
      (hreach.mono fun n ↦ (Node.probed_sublist n).subset) (hoff j hj)

/-- Splitting a fragment that has not been split yet extracts all joins in it and below it. -/
theorem settles (depth : Nat) (top : NodeId) : Settles depth top := by
  induction depth with
  | zero => exact fun _ _ _ _ _ _ hrun ↦ absurd hrun Split.not_runs_throw
  | succ depth ih => exact settles_succ ih

end Splitting

end QueryPlanning
