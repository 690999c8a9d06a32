import QueryPlanning.Proofs.Plan.FragmentListings
import QueryPlanning.Proofs.Plan.Progress
import QueryPlanning.Proofs.Plan.SplitRuns

/-!
# The extraction of a build side

The fragments that move along with a build side are looked up by the exchanges that they feed. They
are children of the fragment that is cut, one for each exchange. The extraction then cuts the build
side off with exactly the fragments that feed it, and the state of the split is again one between
two steps.
-/

namespace QueryPlanning

theorem nodup_eraseDups {α : Type} [BEq α] [LawfulBEq α] (l : List α) : l.eraseDups.Nodup := by
  induction hk : l.length using Nat.strongRecOn generalizing l with
  | ind k ih =>
    cases l with
    | nil => exact List.nodup_nil
    | cons a l =>
      rw [List.eraseDups_cons, List.nodup_cons]
      constructor
      · intro ha
        simp at ha
      · refine ih _ ?_ _ rfl
        have := List.length_filter_le (fun b ↦ !b == a) l
        rw [← hk, List.length_cons]
        omega

namespace Session

variable {s : Session}

theorem nodup_collect {p : Fragment → Bool} {r : FragmentId} {l : List FragmentId}
    (h : s.collect r p = .ok l) : l.Nodup := by
  simp only [collect, Outcome.bind_eq_ok, Outcome.pure_eq_ok] at h
  obtain ⟨l, _, rfl⟩ := h
  exact nodup_eraseDups l

namespace Coherent

variable {b : NodeId} {es : List NodeId} {o : FragmentId} {inputs : List FragmentId}

/-- A fragment that is found by the exchanges that it may feed feeds one of them. -/
theorem exists_of_mem_collect (h : s.Coherent) (hinputs : s.collect o (feeds es) = .ok inputs)
    {f : FragmentId} (hf : f ∈ inputs) : ∃ x e n, s.fragment? f = some x ∧
      x.destination = some e ∧ e ∈ es ∧ s.node? e = some n ∧ n.kind = .exchange f := by
  obtain ⟨x, hx, hfeeds⟩ := ((mem_collect_iff h.linked h.acyclic hinputs).mp hf).holds
  obtain ⟨e, hdest, he⟩ := (Option.any_eq_true _ _).mp hfeeds
  obtain ⟨n, hn, hkind⟩ := h.destination hx hdest
  exact ⟨x, e, n, hx, hdest, List.contains_iff_mem.mp he, hn, hkind⟩

/-- The fragments that feed some exchanges of a fragment are found among its children. -/
theorem mem_collect (h : s.Coherent) (hes : s.exchanges b = .ok es) (howned : s.Owned b (some o))
    (hinputs : s.collect o (feeds es) = .ok inputs) {f : FragmentId} :
    f ∈ inputs ↔ s.Feeds b f := by
  constructor
  · intro hf
    obtain ⟨x, e, n, _, _, he, hn, hkind⟩ := h.exists_of_mem_collect hinputs hf
    exact ⟨e, n, ((mem_exchanges hes).mp he).1, hn, hkind⟩
  · rintro ⟨e, n, he, hn, hkind⟩
    have hmem : e ∈ es := (mem_exchanges hes).mpr ⟨he, n, f, hn, hkind⟩
    obtain ⟨y, _, _, hy, _, hdest, _, hparent⟩ := h.exchange hn hkind
    have hfeeds : feeds es y = true := by
      rw [feeds, hdest]
      exact List.contains_iff_mem.mpr hmem
    rw [howned e n he hn] at hparent
    have hparent : s.parent? f = some o := (parent?_eq hy).trans hparent
    refine (mem_collect_iff h.linked h.acyclic hinputs).mpr
      ⟨.single hparent, ⟨y, hy, hfeeds⟩, fun {g z} hog hgf hz ↦ ?_⟩
    obtain ⟨q, hgq, hq⟩ := Relation.TransGen.tail'_iff.mp hgf
    obtain rfl := Option.some.inj (hparent.symm.trans hq)
    have hgo : g = o := by
      rcases Relation.reflTransGen_iff_eq_or_transGen.mp hog with heq | hlt
      · exact heq
      · exact absurd (hlt.trans_left hgq) (h.acyclic o)
    -- The fragment of the exchanges does not feed any of them.
    subst hgo
    rw [← Bool.not_eq_true]
    intro hfeeds'
    obtain ⟨e', hdest', he'⟩ := (Option.any_eq_true _ _).mp hfeeds'
    obtain ⟨hin, _⟩ := (mem_exchanges hes).mp (List.contains_iff_mem.mp he')
    obtain ⟨m, hm, hkind'⟩ := h.destination hz hdest'
    obtain ⟨z', _, _, hz', _, _, _, hparent'⟩ := h.exchange hm hkind'
    rw [howned e' m hin hm] at hparent'
    exact h.ne_parent hz' hparent' rfl

/-- There are as many exchanges of a fragment as there are fragments that feed them. -/
theorem length_collect (h : s.Coherent) (hes : s.exchanges b = .ok es)
    (howned : s.Owned b (some o)) (hinputs : s.collect o (feeds es) = .ok inputs) :
    es.length = inputs.length := by
  let destination := fun f ↦ (s.fragment? f).bind (·.destination)
  have hdestination {f : FragmentId} (hf : f ∈ inputs) :
      ∃ e n, destination f = some e ∧ e ∈ es ∧ s.node? e = some n ∧ n.kind = .exchange f := by
    obtain ⟨x, e, n, hx, hdest, he, hn, hkind⟩ := h.exists_of_mem_collect hinputs hf
    exact ⟨e, n, by simp [destination, hx, hdest], he, hn, hkind⟩
  have hnodup : (inputs.map destination).Nodup := by
    apply (nodup_collect hinputs).map_on
    intro f hf g hg hfg
    obtain ⟨e, n, hfe, _, hn, hkind⟩ := hdestination hf
    obtain ⟨e', m, hge, _, hm, hkind'⟩ := hdestination hg
    rw [hfe, hge, Option.some.injEq] at hfg
    rw [hfg, hm] at hn
    rw [← Option.some.inj hn] at hkind
    exact NodeKind.exchange.inj (hkind.symm.trans hkind')
  have hperm : (inputs.map destination).Perm (es.map some) := by
    refine (List.perm_ext_iff_of_nodup hnodup ?_).mpr fun d ↦ ?_
    · exact (h.tree.nodup_exchanges hes).map fun _ _ ↦ Option.some.inj
    · rw [List.mem_map, List.mem_map]
      constructor
      · rintro ⟨f, hf, rfl⟩
        obtain ⟨e, _, hfe, he, _⟩ := hdestination hf
        exact ⟨e, he, hfe.symm⟩
      · rintro ⟨e, he, rfl⟩
        obtain ⟨hin, n, f, hn, hkind⟩ := (mem_exchanges hes).mp he
        obtain ⟨x, _, _, hx, _, hdest, _⟩ := h.exchange hn hkind
        refine ⟨f, (h.mem_collect hes howned hinputs).mpr ⟨e, n, hin, hn, hkind⟩, ?_⟩
        simp [destination, hx, hdest]
  have hlength := hperm.length_eq
  rw [List.length_map, List.length_map] at hlength
  exact hlength.symm

end Coherent

end Session

namespace Split

variable {s : Session}

theorem buildSide_eq_ok {j : NodeId} {n : Node} (hn : s.node? j = some n) {side : BuildSide}
    (hside : buildSide s j = .ok side) :
    n.children[1]? = some side.root ∧ side.fragment = n.fragment ∧
      s.exchanges side.root = .ok side.exchanges ∧
      s.collect n.fragment (Session.feeds side.exchanges) = .ok side.inputs := by
  simp only [buildSide, Outcome.bind_eq_ok, Session.node_eq_ok] at hside
  obtain ⟨n', hn', hside⟩ := hside
  obtain rfl := Option.some.inj (hn.symm.trans hn')
  split at hside
  · rename_i root hroot
    simp only [Outcome.bind_eq_ok] at hside
    obtain ⟨es, hes, inputs, hinputs, hside⟩ := hside
    split at hside
    · cases hside
    · obtain rfl := Outcome.pure_eq_ok.mp hside
      exact ⟨hroot, rfl, hes, hinputs⟩
  · cases hside

/-- The steps of an extraction. -/
theorem steps_of_extract {st st' : Splitting} {j : NodeId} {cohort : CohortId} {f : FragmentId}
    (h : Runs (extract j cohort) st f st') :
    ∃ side sink s₁ y s₂ s₃, buildSide st.session j = .ok side ∧
      st.session.assignJoin j st.tables.peek = .ok (sink, s₁) ∧
      s₁.fragment? side.fragment = some y ∧
      s₁.createFragment side.root y.partitioning = .ok (f, s₂) ∧
      side.inputs.foldlM (Session.moveInput f) (s₂.setSink f sink) = .ok s₃ ∧
      st' = { st with
        session := s₃.setPlan f st.plans.peek cohort
        roots := st.roots ++ [f]
        tables := st.tables.take.2
        plans := st.plans.take.2 } := by
  unfold extract at h
  simp only [runs_bind] at h
  obtain ⟨side, _, askSide, _, _, takeTable, sink, _, assign, y, _, askFragment, g, _, create,
    _, _, setSink, _, _, check, _, _, move, _, _, takePlan, _, _, setPlan, _, _, addRoot,
    hpure⟩ := h
  obtain ⟨hside, rfl⟩ := runs_ask.mp askSide
  obtain ⟨rfl, rfl⟩ := runs_takeTable.mp takeTable
  obtain ⟨s₁, hsink, rfl⟩ := runs_change.mp assign
  obtain ⟨hfragment, rfl⟩ := runs_ask.mp askFragment
  obtain ⟨s₂, hcreate, rfl⟩ := runs_change.mp create
  obtain rfl := runs_update.mp setSink
  obtain rfl := eq_of_forM_ask check
  obtain ⟨s₃, hmove, rfl⟩ := foldlM_of_forM_change move
  obtain ⟨rfl, rfl⟩ := runs_takePlan.mp takePlan
  obtain rfl := runs_update.mp setPlan
  obtain rfl := runs_modify.mp addRoot
  obtain ⟨rfl, rfl⟩ := runs_pure.mp hpure
  exact ⟨side, sink, s₁, y, s₂, s₃, hside, hsink, Session.fragment_eq_ok.mp hfragment, hcreate,
    hmove, rfl⟩

end Split

theorem Join.assign_eq_ok {join join' : Join} {table : JoinTableId}
    (h : join.assign table = .ok join') : join' = { join with table } := by
  unfold Join.assign at h
  cases hnew : table.isValid with
  | false =>
    rw [hnew] at h
    cases h
  | true =>
    cases hold : join.table.isValid with
    | true =>
      rw [hnew, hold] at h
      cases h
    | false =>
      rw [hnew, hold] at h
      exact (Outcome.pure_eq_ok.mp h).symm

theorem SinkKind.ofJoin_eq_ok {join : Join} {table : JoinTableId} {kind : SinkKind}
    (h : SinkKind.ofJoin table join = .ok kind) :
    ∃ keys, join.buildKeys = .ok keys ∧ kind = .joinBuild table keys := by
  unfold SinkKind.ofJoin at h
  split at h
  · cases h
  · simp only [Outcome.bind_eq_ok, Outcome.pure_eq_ok] at h
    obtain ⟨keys, hkeys, rfl⟩ := h
    exact ⟨keys, hkeys, rfl⟩

namespace Session

variable {s s' : Session}

/-! ## What an extraction changes -/

/-- The build side of the join `n`, which is node `j`, has become the fragment `x`. -/
structure Extracted (s s' : Session) (j : NodeId) (n : Node) (join : Join) (table : JoinTableId)
    (x : Fragment) (inputs : List FragmentId) : Prop where
  coherent : s'.Coherent
  plan : s'.plan = s.plan
  node : s.node? j = some n
  kind : n.kind = .join join
  build : n.children[1]? = some x.root
  tabled : s'.node? j = some { n with kind := .join { join with table } }
  moved {i : NodeId} {m : Node} : s.Reach Node.inner x.root i → s.node? i = some m →
    s'.node? i = some { m with fragment := x.id }
  kept {i : NodeId} : i ≠ j → ¬s.Reach Node.inner x.root i → s'.node? i = s.node? i
  fresh : s.fragment? x.id = none
  cut : s'.fragment? x.id = some (x.rehomed x.id inputs)
  other {f : FragmentId} :
    f ≠ x.id → s'.fragment? f = (s.fragment? f).map (Fragment.rehomed x.id inputs)
  destination : x.destination = none
  feeds {f : FragmentId} : f ∈ inputs → s.Feeds x.root f
  home {f : FragmentId} : f ∈ inputs → s.parent? f = some n.fragment

theorem feeds_of_plan (h : s'.plan = s.plan) : s'.Feeds = s.Feeds := by
  have mono {s s' : Session} (h : s'.plan = s.plan) {r : NodeId} {f : FragmentId} :
      s.Feeds r f → s'.Feeds r f := by
    rintro ⟨e, n, hin, hn, hkind⟩
    obtain ⟨n', hn', hplain⟩ := exists_node?_of_plan h hn
    refine ⟨e, n', inside_of_plan h ▸ hin, hn', ?_⟩
    rw [← Node.plain_kind_exchange, hplain, Node.plain_kind_exchange]
    exact hkind
  funext r f
  exact propext ⟨mono h.symm, mono h⟩

theorem owned_of_plan (h : s'.plan = s.plan)
    (hnode : ∀ i, (s'.node? i).map (·.fragment) = (s.node? i).map (·.fragment)) {b : NodeId}
    {o : Option FragmentId} (hs : s.Owned b o) : s'.Owned b o := by
  intro i n' hin hn'
  obtain ⟨n, hn, heq⟩ := exists_of_map_eq (hnode i).symm hn'
  have howner := hs i n (inside_of_plan h ▸ hin) hn
  rw [Node.owner?, heq] at howner
  exact howner

/-- The session after a join has been given a table. -/
def setTable (s : Session) (j : NodeId) (join : Join) (table : JoinTableId) : Session :=
  s.modifyNode j ({ · with kind := .join { join with table } })

/-- A join gets its table and keeps everything else. -/
theorem assignJoin_eq_ok {j : NodeId} {n : Node} {join : Join} {table : JoinTableId}
    {sink : SinkKind} (hn : s.node? j = some n) (hkind : n.kind = .join join)
    (h : s.assignJoin j table = .ok (sink, s')) :
    ∃ keys, join.buildKeys = .ok keys ∧ sink = .joinBuild table keys ∧
      s' = s.setTable j join table := by
  simp only [assignJoin, Outcome.bind_eq_ok, node_eq_ok] at h
  obtain ⟨n', hn', h⟩ := h
  obtain rfl := Option.some.inj (hn.symm.trans hn')
  rw [hkind] at h
  simp only [Outcome.bind_eq_ok] at h
  obtain ⟨kind, hsink, join', hassign, h⟩ := h
  obtain ⟨rfl, rfl⟩ := Prod.mk.inj (Outcome.pure_eq_ok.mp h)
  obtain ⟨keys, hkeys, rfl⟩ := SinkKind.ofJoin_eq_ok hsink
  rw [Join.assign_eq_ok hassign]
  exact ⟨keys, hkeys, rfl, rfl⟩

theorem node?_setTable (s : Session) (j : NodeId) (join : Join) (table : JoinTableId)
    (i : NodeId) : (s.setTable j join table).node? i =
      if i = j then (s.node? i).map ({ · with kind := .join { join with table } })
      else s.node? i := by
  apply node?_modifyNode
  intro n
  rfl

section SetTable

variable {j : NodeId} {n : Node} {join : Join} (table : JoinTableId)
  (hn : s.node? j = some n) (hkind : n.kind = .join join)

include hn hkind

theorem Ordered.plan_setTable (h : s.Ordered) : (s.setTable j join table).plan = s.plan := by
  rw [plan, plan, Session.setTable, Session.modifyNode, Numbered.modify, List.map_map]
  apply List.map_congr_left
  intro m hm
  rw [Function.comp_apply]
  split
  · rename_i hid
    have hm' : s.node? j = some m := hid ▸ h.nodes.get?_of_mem hm
    obtain rfl := Option.some.inj (hn.symm.trans hm')
    simp only [Node.plain, hkind]
  · rfl

theorem Coherent.setTable (h : s.Coherent) : (s.setTable j join table).Coherent := by
  apply h.modifyNode
  · intro m
    rfl
  · intro m hm
    obtain rfl := Option.some.inj (hn.symm.trans hm)
    simp [Node.links, Node.input?, hkind]

theorem Owned.setTable (hs : s.Ordered) {b : NodeId} {o : Option FragmentId} (h : s.Owned b o) :
    (s.setTable j join table).Owned b o := by
  refine owned_of_plan (hs.plan_setTable table hn hkind) (fun i ↦ ?_) h
  rw [node?_setTable]
  split
  · rw [Option.map_map]
    rfl
  · rfl

end SetTable

theorem fragment?_setPlan (s : Session) (f : FragmentId) (plan : PlanId) (cohort : CohortId)
    (g : FragmentId) : (s.setPlan f plan cohort).fragment? g =
      if g = f then (s.fragment? g).map ({ · with plan, cohort }) else s.fragment? g := by
  apply fragment?_modifyFragment
  intro x
  rfl

/-- A fragment with another plan begins, ends and sends its rows where it did. -/
theorem fragment?_setPlan_new {f g : FragmentId} {plan : PlanId} {cohort : CohortId}
    {x : Fragment} (hx : s.fragment? g = some x) :
    ∃ x', (s.setPlan f plan cohort).fragment? g = some x' ∧ x'.root = x.root ∧
      x'.destination = x.destination ∧ x'.sink = x.sink := by
  rw [fragment?_setPlan, hx]
  split
  · exact ⟨_, rfl, rfl, rfl, rfl⟩
  · exact ⟨_, rfl, rfl, rfl, rfl⟩

theorem fragment?_setPlan_old {f g : FragmentId} {plan : PlanId} {cohort : CohortId}
    {x' : Fragment} (hx' : (s.setPlan f plan cohort).fragment? g = some x') :
    ∃ x, s.fragment? g = some x ∧ x'.root = x.root ∧ x'.destination = x.destination := by
  rw [fragment?_setPlan] at hx'
  split at hx'
  · obtain ⟨x, hx, rfl⟩ := Option.map_eq_some_iff.mp hx'
    exact ⟨x, hx, rfl, rfl⟩
  · exact ⟨x', hx', rfl, rfl⟩

theorem Coherent.setPlan (h : s.Coherent) (f : FragmentId) (plan : PlanId) (cohort : CohortId) :
    (s.setPlan f plan cohort).Coherent := by
  apply h.modifyFragment
  · intro x
    rfl
  · intro x _
    rfl

end Session

/-- The build side of the join `n`, which is node `j`, has become the root `x` of a plan, to whose
table the rows of the plan go. -/
structure Splitting.Extracts (st st' : Splitting) (j : NodeId) (n : Node) (join : Join)
    (x : Fragment) (inputs : List FragmentId) : Prop where
  session : st.session.Extracted st'.session j n join st.tables.peek x inputs
  untabled : join.table.isValid = false
  sink : ∃ keys, join.buildKeys = .ok keys ∧
    x.sink = some { fragment := x.id, kind := .joinBuild st.tables.peek keys }
  partitioning : ∃ y, st.session.fragment? n.fragment = some y ∧ x.partitioning = y.partitioning
  plan : x.plan = st.plans.peek
  cohort : x.cohort.isValid = true
  roots : st'.roots = st.roots ++ [x.id]
  tables : st'.tables = st.tables.take.2
  plans : st'.plans = st.plans.take.2
  cohorts : st'.cohorts = st.cohorts

namespace Session

variable {s s₂ s₃ : Session} {j b : NodeId} {n : Node} {join : Join} {table : JoinTableId}
  {partitioning : Partitioning} {f : FragmentId} {sink : SinkKind} {inputs : List FragmentId}

/-- Once its join has a table, a build side without fragments of its own is cut off, and the
fragments that feed it follow. -/
theorem Coherent.recut_of_build (h : s.Coherent) (hn : s.node? j = some n)
    (hkind : n.kind = .join join) (howned : s.Owned b (some n.fragment)) {y : Fragment}
    (hy : s.fragment? n.fragment = some y) (hnodup : inputs.Nodup)
    (hinputs : ∀ f, f ∈ inputs ↔ s.Feeds b f)
    (hcreate : (s.setTable j join table).createFragment b partitioning = .ok (f, s₂))
    (hmove : inputs.foldlM (moveInput f) (s₂.setSink f sink) = .ok s₃) :
    (s.setTable j join table).Recut s₃
      { id := f, root := b, partitioning, sink := some { fragment := f, kind := sink } }
      inputs := by
  have hplan := h.ordered.plan_setTable table hn hkind
  have hcoherent := h.setTable table hn hkind
  have howned₁ := howned.setTable table hn hkind h.ordered
  have hcut := (hcoherent.recut_of_owned howned₁ hcreate).setSink sink
  have hne : n.fragment ≠ f := hcut.parted.id_ne hy
  apply hcut.rehome
  apply Rehomed.of_foldlM (fun hl hs ↦ .of_moveInput hl hne hs) hnodup _ hmove
  intro g hg
  rw [hinputs, ← feeds_of_plan hplan] at hg
  exact hcoherent.listed_of_recut hcut howned₁ hg

/-- A cut at the build side of a join that has been given a table is an extraction, whatever plan
the new fragment is in. -/
theorem Recut.extracted {x : Fragment} (hr : (s.setTable j join table).Recut s₃ x inputs)
    (h : s.Coherent) (hcoherent : s₃.Coherent) (hn : s.node? j = some n)
    (hkind : n.kind = .join join) (hb : n.children[1]? = some x.root)
    (howned : s.Owned x.root (some n.fragment)) (hinputs : ∀ f, f ∈ inputs ↔ s.Feeds x.root f)
    (plan : PlanId) (cohort : CohortId) :
    s.Extracted (s₃.setPlan x.id plan cohort) j n join table { x with plan, cohort } inputs := by
  have hplan := h.ordered.plan_setTable table hn hkind
  have hreach : (s.setTable j join table).Reach Node.inner = s.Reach Node.inner :=
    inside_of_plan hplan
  have hoff {i : NodeId} (hi : s.Reach Node.inner x.root i) : i ≠ j := by
    rintro rfl
    have hchild : s.Child i x.root := ⟨n, hn, List.mem_of_getElem? hb⟩
    exact h.tree.not_below_child hchild (hi.mono Node.inner_subset)
  constructor
  case coherent => exact hcoherent.setPlan x.id plan cohort
  case plan => exact hr.plan.trans hplan
  case node => exact hn
  case kind => exact hkind
  case build => exact hb
  case tabled =>
    have hout : ¬(s.setTable j join table).Reach Node.inner x.root j := by
      rw [hreach]
      exact fun hin ↦ hoff hin rfl
    apply (hr.kept hout).trans
    rw [node?_setTable, if_pos rfl, hn]
    rfl
  case moved =>
    intro i m hi hm
    apply hr.moved (hreach ▸ hi)
    rw [node?_setTable, if_neg (hoff hi), hm]
  case kept =>
    intro i hi hout
    apply (hr.kept (hreach ▸ hout)).trans
    rw [node?_setTable, if_neg hi]
  case fresh => exact hr.fresh
  case cut =>
    apply (fragment?_setPlan s₃ x.id plan cohort x.id).trans
    rw [if_pos rfl, hr.cut, Fragment.rehomed_target rfl, Fragment.rehomed_target rfl]
    rfl
  case other =>
    intro g hg
    apply (fragment?_setPlan s₃ x.id plan cohort g).trans
    rw [if_neg hg, hr.other hg]
    rfl
  case destination => exact hr.destination
  case feeds => exact fun hg ↦ (hinputs _).mp hg
  case home =>
    intro g hg
    obtain ⟨e, m, hin, hm, hexchange⟩ := (hinputs g).mp hg
    obtain ⟨z, _, _, hz, _, _, _, hparent⟩ := h.exchange hm hexchange
    rw [parent?_eq hz, hparent, howned e m hin hm]

end Session

namespace Splitting.Progress

variable {st st' : Splitting} {top : NodeId}

/-- An extraction cuts the build side off with exactly the fragments that feed it. -/
theorem extracts (h : st.Progress top) {j b : NodeId} {n : Node} {join : Join}
    {cohort : CohortId} {f : FragmentId} (hn : st.session.node? j = some n)
    (hkind : n.kind = .join join) (htable : join.table.isValid = false)
    (hb : n.children[1]? = some b) (hpristine : st.session.Pristine b)
    (hcohort : cohort.isValid = true)
    (hrun : Split.Runs (Split.extract j cohort) st f st') :
    ∃ x inputs, x.id = f ∧ x.root = b ∧ x.cohort = cohort ∧
      st.Extracts st' j n join x inputs := by
  obtain ⟨side, sink, s₁, y, s₂, s₃, hside, hassign, hy, hcreate, hmove, rfl⟩ :=
    Split.steps_of_extract hrun
  obtain ⟨hb', hfragment, hes, hcollect⟩ := Split.buildSide_eq_ok hn hside
  obtain rfl := Option.some.inj (hb.symm.trans hb')
  obtain ⟨keys, hkeys, rfl, rfl⟩ := Session.assignJoin_eq_ok hn hkind hassign
  rw [hfragment] at hy
  obtain ⟨_, hroots⟩ := h.build_side hn hkind htable hb
  have howned := h.owned_build hn hkind htable hb hpristine
  have hnodup := Session.nodup_collect hcollect
  have hinputs (g : FragmentId) : g ∈ side.inputs ↔ st.session.Feeds side.root g :=
    h.coherent.mem_collect hes howned hcollect
  have hrecut := h.coherent.recut_of_build hn hkind howned hy hnodup hinputs hcreate hmove
  have hcoherent : s₃.Coherent := by
    apply hrecut.coherent (h.coherent.setTable _ hn hkind)
      (howned.setTable _ hn hkind h.coherent.ordered) hroots hnodup
    intro g
    rw [hinputs, Session.feeds_of_plan (h.coherent.ordered.plan_setTable _ hn hkind)]
  have hextracted := hrecut.extracted h.coherent hcoherent hn hkind hb howned hinputs
    st.plans.peek cohort
  exact ⟨_, _, rfl, rfl, rfl, hextracted, htable, ⟨keys, hkeys, rfl⟩, ⟨y, hy, rfl⟩, rfl, hcohort,
    rfl, rfl, rfl, rfl⟩

end Splitting.Progress

namespace Session.Extracted

variable {s s' : Session} {j : NodeId} {n : Node} {join : Join} {table : JoinTableId}
  {x : Fragment} {inputs : List FragmentId}

theorem child (h : s.Extracted s' j n join table x inputs) : s.Child j x.root :=
  ⟨n, h.node, List.mem_of_getElem? h.build⟩

theorem parted (h : s.Extracted s' j n join table x inputs) : s.Parted s' x inputs :=
  ⟨h.fresh, h.cut, h.other⟩

/-- Only the join itself changes its kind. -/
theorem node_cases (h : s.Extracted s' j n join table x inputs) {i : NodeId} {m' : Node}
    (hm' : s'.node? i = some m') :
    (i = j ∧ m' = { n with kind := .join { join with table } }) ∨
      (i ≠ j ∧ ∃ m, s.node? i = some m ∧ m'.kind = m.kind ∧ m'.children = m.children ∧
        (m'.fragment = x.id ∨ m'.fragment = m.fragment)) := by
  by_cases hi : i = j
  · subst hi
    rw [h.tabled] at hm'
    exact .inl ⟨rfl, (Option.some.inj hm').symm⟩
  · right
    refine ⟨hi, ?_⟩
    by_cases hin : s.Reach Node.inner x.root i
    · obtain ⟨m, hm, _⟩ := exists_node?_of_plan h.plan.symm hm'
      rw [h.moved hin hm] at hm'
      obtain rfl := Option.some.inj hm'
      exact ⟨m, hm, rfl, rfl, .inl rfl⟩
    · rw [h.kept hi hin] at hm'
      exact ⟨m', hm', rfl, rfl, .inr rfl⟩

/-- A node other than the join keeps its kind. -/
theorem node_old (h : s.Extracted s' j n join table x inputs) {i : NodeId} {m : Node}
    (hm : s.node? i = some m) (hi : i ≠ j) :
    ∃ m', s'.node? i = some m' ∧ m'.kind = m.kind ∧ m'.children = m.children := by
  by_cases hin : s.Reach Node.inner x.root i
  · exact ⟨_, h.moved hin hm, rfl, rfl⟩
  · exact ⟨m, (h.kept hi hin).trans hm, rfl, rfl⟩

end Session.Extracted

namespace Splitting

variable {st st' : Splitting} {top : NodeId} {j : NodeId} {n : Node} {join : Join} {x : Fragment}
  {inputs : List FragmentId} {k : Nat} {f : FragmentId}

namespace Progress

theorem roots_pos (h : st.Progress top) : 0 < st.roots.length := by
  obtain ⟨f, _, hf, _⟩ := h.head
  exact (List.getElem?_eq_some_iff.mp hf).1

theorem tables_peek (h : st.Progress top) : st.tables.peek = .ofNat (st.roots.length - 1) := by
  have hpos := h.roots_pos
  have htables := h.tables
  simp only [IdSource.peek, Id.ofNat, Id.mk.injEq]
  omega

end Progress

namespace Extracts

theorem roots_old (he : st.Extracts st' j n join x inputs) (hk : st.roots[k]? = some f) :
    st'.roots[k]? = some f := by
  rw [he.roots, List.getElem?_append_left (List.getElem?_eq_some_iff.mp hk).1, hk]

theorem roots_new (he : st.Extracts st' j n join x inputs) :
    st'.roots[st.roots.length]? = some x.id := by
  rw [he.roots, List.getElem?_concat_length]

theorem roots_cases (he : st.Extracts st' j n join x inputs) (hk : st'.roots[k]? = some f) :
    st.roots[k]? = some f ∨ (k = st.roots.length ∧ f = x.id) := by
  rw [he.roots] at hk
  exact Numbered.getElem?_concat_cases hk

theorem mem_roots (he : st.Extracts st' j n join x inputs) (h : st.Progress top) :
    f ∈ st'.roots ↔ ∃ y, st'.session.fragment? f = some y ∧ y.destination = none := by
  have hparted := he.session.parted
  rw [he.roots, List.mem_append, List.mem_singleton, h.mem_roots]
  constructor
  · rintro (⟨y, hy, hd⟩ | rfl)
    · exact ⟨_, hparted.fragment hy, Fragment.rehomed_destination.trans hd⟩
    · exact ⟨_, hparted.cut, Fragment.rehomed_destination.trans he.session.destination⟩
  · rintro ⟨y', hy', hd⟩
    rcases hparted.fragment_cases hy' with ⟨rfl, _⟩ | ⟨y, hy, _, rfl⟩
    · exact .inr rfl
    · exact .inl ⟨y, hy, Fragment.rehomed_destination.symm.trans hd⟩

/-- A join that had a table before is another one and keeps it. -/
theorem build (he : st.Extracts st' j n join x inputs) (h : st.Progress top)
    (hk : st'.roots[k + 1]? = some f) :
    ∃ y i m join' keys, st'.session.fragment? f = some y ∧ st'.session.node? i = some m ∧
      m.kind = .join join' ∧ join'.table = .ofNat k ∧ m.children[1]? = some y.root ∧
      join'.buildKeys = .ok keys ∧
      y.sink = some { fragment := f, kind := .joinBuild join'.table keys } := by
  rcases he.roots_cases hk with hk | ⟨hlength, rfl⟩
  · obtain ⟨y, i, m, join', keys, hy, hm, hkind, htable, hbuild, hkeys, hsink⟩ := h.build hk
    have hi : i ≠ j := by
      rintro rfl
      obtain rfl := Option.some.inj (hm.symm.trans he.session.node)
      obtain rfl := NodeKind.join.inj (hkind.symm.trans he.session.kind)
      have huntabled := he.untabled
      rw [htable, Id.isValid_ofNat] at huntabled
      cases huntabled
    obtain ⟨m', hm', hkind', hchildren⟩ := he.session.node_old hm hi
    refine ⟨_, i, m', join', keys, he.session.parted.fragment hy, hm', hkind'.trans hkind, htable,
      ?_, hkeys, Fragment.rehomed_sink.trans hsink⟩
    rw [hchildren, hbuild, Fragment.rehomed_root]
  · obtain ⟨keys, hkeys, hsink⟩ := he.sink
    have hk' : k = st.roots.length - 1 := by omega
    refine ⟨_, j, _, _, keys, he.session.cut, he.session.tabled, rfl, hk' ▸ h.tables_peek, ?_,
      hkeys, Fragment.rehomed_sink.trans hsink⟩
    rw [Fragment.rehomed_root]
    exact he.session.build

theorem tabled (he : st.Extracts st' j n join x inputs) (h : st.Progress top) {i : NodeId}
    {m' : Node} {join' : Join} (hm' : st'.session.node? i = some m') (hkind : m'.kind = .join join')
    (hvalid : join'.table.isValid = true) :
    ∃ k f y, join'.table = .ofNat k ∧ st'.roots[k + 1]? = some f ∧
      st'.session.fragment? f = some y ∧ m'.children[1]? = some y.root := by
  rcases he.session.node_cases hm' with ⟨_, rfl⟩ | ⟨_, m, hm, hkind', hchildren, _⟩
  · obtain rfl := NodeKind.join.inj hkind
    refine ⟨st.roots.length - 1, x.id, _, h.tables_peek, ?_, he.session.cut, ?_⟩
    · rw [Nat.sub_add_cancel h.roots_pos]
      exact he.roots_new
    · rw [Fragment.rehomed_root]
      exact he.session.build
  · obtain ⟨k, f, y, hk, hf, hy, hbuild⟩ := h.tabled hm (hkind'.symm.trans hkind) hvalid
    refine ⟨k, f, _, hk, he.roots_old hf, he.session.parted.fragment hy, ?_⟩
    rw [hchildren, hbuild, Fragment.rehomed_root]

theorem plan_of_root (he : st.Extracts st' j n join x inputs) (h : st.Progress top)
    {y' : Fragment} (hk : st'.roots[k]? = some f) (hy' : st'.session.fragment? f = some y') :
    y'.plan = .ofNat k ∧ y'.cohort.isValid = true := by
  rcases he.roots_cases hk with hk | ⟨rfl, rfl⟩
  · obtain ⟨y, hy, _⟩ := h.mem_roots.mp (List.mem_of_getElem? hk)
    rw [he.session.parted.fragment hy] at hy'
    obtain rfl := Option.some.inj hy'
    rw [Fragment.rehomed_plan, Fragment.rehomed_cohort]
    exact h.plan hk hy
  · rw [he.session.cut] at hy'
    obtain rfl := Option.some.inj hy'
    rw [Fragment.rehomed_plan, Fragment.rehomed_cohort, he.plan]
    refine ⟨?_, he.cohort⟩
    rw [IdSource.peek, h.plans]
    rfl

/-- After an extraction, the split is again between two steps. -/
theorem progress (he : st.Extracts st' j n join x inputs) (h : st.Progress top) :
    st'.Progress top where
  coherent := he.session.coherent
  owned {i m'} hm' := by
    rcases he.session.node_cases hm' with ⟨_, rfl⟩ | ⟨_, m, hm, _, _, hfragment | hfragment⟩
    · exact h.owned (n := n) he.session.node
    · rw [hfragment]
      exact he.session.coherent.ordered.ne_invalid he.session.cut
    · rw [hfragment]
      exact h.owned hm
  nodup := by
    rw [he.roots, List.nodup_append]
    refine ⟨h.nodup, List.nodup_singleton _, ?_⟩
    rintro f hf g hg rfl
    obtain ⟨y, hy, _⟩ := h.mem_roots.mp hf
    exact he.session.parted.id_ne hy (List.mem_singleton.mp hg)
  mem_roots := he.mem_roots h
  head := by
    obtain ⟨f, y, hf, hy, hroot⟩ := h.head
    exact ⟨f, _, he.roots_old hf, he.session.parted.fragment hy, Fragment.rehomed_root.trans hroot⟩
  top := by
    rw [Session.child_of_plan he.session.plan]
    exact h.top
  build hk := he.build h hk
  tabled hm' hkind hvalid := he.tabled h hm' hkind hvalid
  plan hk hy' := he.plan_of_root h hk hy'
  tables := by
    rw [he.tables, he.roots, IdSource.take_snd_next, h.tables, List.length_append]
    rfl
  plans := by
    rw [he.plans, he.roots, IdSource.take_snd_next, h.plans, List.length_append]
    rfl
  cohorts := by
    rw [he.cohorts]
    exact h.cohorts

end Extracts

end Splitting

end QueryPlanning
