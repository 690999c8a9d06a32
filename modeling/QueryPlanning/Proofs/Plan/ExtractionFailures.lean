import QueryPlanning.Proofs.Plan.Splits

/-!
# Where an extraction fails

The build side of a join is stored by the right operands of the join's equalities. An extraction
fails if such an operand is missing, and for no other reason: the fragments that feed the build side
are as many as its exchanges, the cut takes over the exchanges, and each of the fragments is a child
of the fragment that it is moved from.
-/

namespace QueryPlanning

namespace Join

/-- The equalities of a hash join have right operands. -/
def Keyed (join : Join) : Prop :=
  join.algorithm = .hash → ∀ c ∈ join.equalities, (c.operand? 1).isSome = true

theorem keyed_of_buildKeys {join : Join} {keys : List Expr} (h : join.buildKeys = .ok keys) :
    join.Keyed := by
  intro halgorithm c hc
  unfold buildKeys at h
  rw [halgorithm] at h
  obtain ⟨key, hkey⟩ := Outcome.exists_of_mem_mapM h hc
  split at hkey
  · rename_i hoperand
    rw [hoperand]
    rfl
  · cases hkey

theorem buildKeys_eq_error {join : Join} {e : Error} (h : join.buildKeys = .error e) :
    join.algorithm = .hash ∧
      ∃ c ∈ join.equalities, c.operand? 1 = none ∧ e = .conjunctWithoutOperand c.sql := by
  unfold buildKeys at h
  split at h
  · cases h
  · rename_i halgorithm
    obtain ⟨c, hc, herror⟩ := Outcome.exists_of_mapM_eq_error h
    split at herror
    · cases herror
    · rename_i hoperand
      exact ⟨halgorithm, c, hc, hoperand, (Except.error.inj herror).symm⟩

end Join

namespace Node

/-- A join or a subplan has two inputs. -/
def Binary (n : Node) : Prop :=
  match n.kind with
  | .join _ | .subplan => n.children.length = 2
  | _ => True

theorem Binary.of_eq {m n : Node} (h : n.Binary) (hkind : m.kind = n.kind)
    (hchildren : m.children = n.children) : m.Binary := by
  rw [Binary, hkind, hchildren]
  exact h

theorem plain_binary {n : Node} : n.plain.Binary ↔ n.Binary := by
  unfold Binary plain
  cases n.kind <;> exact Iff.rfl

theorem Binary.exists_build {n : Node} (h : n.Binary) {join : Join} (hkind : n.kind = .join join) :
    ∃ b, n.children[1]? = some b := by
  unfold Binary at h
  rw [hkind] at h
  have hlength : n.children.length = 2 := h
  exact ⟨_, List.getElem?_eq_getElem (by omega)⟩

/-- Nodes that were added as the same join differ in the table only. -/
theorem exists_join_of_plain {m n : Node} (h : m.plain = n.plain) {join : Join}
    (hkind : n.kind = .join join) : ∃ table, m.kind = .join { join with table } := by
  have hkinds : m.plain.kind = n.plain.kind := congrArg Node.kind h
  unfold plain at hkinds
  rw [hkind] at hkinds
  cases hm : m.kind with
  | join other =>
    rw [hm] at hkinds
    have hsame : { other with table := .invalid } = { join with table := .invalid } :=
      NodeKind.join.inj hkinds
    refine ⟨other.table, ?_⟩
    obtain ⟨_⟩ := other
    obtain ⟨_⟩ := join
    cases hsame
    rfl
  | _ =>
    rw [hm] at hkinds
    cases hkinds

end Node

namespace Session

variable {s s' : Session}

def Binary (s : Session) : Prop := ∀ n ∈ s.nodes, n.Binary

theorem Binary.of_plan (h : s.Binary) (hplan : s'.plan = s.plan) : s'.Binary := by
  intro n' hn'
  have hmem : n'.plain ∈ s'.plan := List.mem_map_of_mem hn'
  rw [hplan] at hmem
  obtain ⟨n, hn, heq⟩ := List.mem_map.mp hmem
  rw [← Node.plain_binary, ← heq, Node.plain_binary]
  exact h n hn

/-- The error tells of an equality that lacks its right operand, in a join that is to be split
off. -/
def Unkeyed (s : Session) (e : Error) : Prop :=
  ∃ j n join c, s.node? j = some n ∧ n.kind = .join join ∧ ¬s.Skipped j ∧
    join.algorithm = .hash ∧ c ∈ join.equalities ∧ c.operand? 1 = none ∧
    e = .conjunctWithoutOperand c.sql

theorem Unkeyed.of_plan {e : Error} (h : s.Unkeyed e) (hplan : s'.plan = s.plan) :
    s'.Unkeyed e := by
  obtain ⟨j, n, join, c, hn, hkind, hskipped, halgorithm, hc, hoperand, he⟩ := h
  obtain ⟨n', hn', hplain⟩ := exists_node?_of_plan hplan hn
  obtain ⟨table, hkind'⟩ := Node.exists_join_of_plain hplain hkind
  rw [← skipped_of_plan hplan] at hskipped
  exact ⟨j, n', _, c, hn', hkind', hskipped, halgorithm, hc, hoperand, he⟩

/-- A join that has no table gets one, unless its build keys are missing. -/
theorem assignJoin_eq_error {j : NodeId} {n : Node} {join : Join} {table : JoinTableId}
    {e : Error} (hn : s.node? j = some n) (hkind : n.kind = .join join)
    (htable : table.isValid = true) (hfree : join.table.isValid = false)
    (h : s.assignJoin j table = .error e) : join.buildKeys = .error e := by
  have hassign : join.assign table = .ok { join with table } := by
    simp [Join.assign, htable, hfree, pure, Except.pure]
  rw [assignJoin, node_eq_ok.mpr hn] at h
  cases hkeys : join.buildKeys with
  | error e' => simpa [bind, Except.bind, hkind, SinkKind.ofJoin, htable, hkeys] using h
  | ok keys =>
    simp [bind, Except.bind, pure, Except.pure, hkind, SinkKind.ofJoin, htable, hkeys,
      hassign] at h

end Session

namespace Split

variable {s : Session} {j b : NodeId} {n : Node}

/-- The build side of a join is found, with as many fragments that feed it as exchanges. -/
theorem exists_buildSide (h : s.Coherent) (hn : s.node? j = some n) {x : Fragment}
    (hx : s.fragment? n.fragment = some x) (hb : n.children[1]? = some b)
    (howned : s.Owned b (some n.fragment)) : ∃ side, buildSide s j = .ok side := by
  obtain ⟨m, hm⟩ := h.tree.child ⟨n, hn, List.mem_of_getElem? hb⟩
  obtain ⟨members, hmembers⟩ := h.tree.descending.exists_segment h.ordered hm
  have hes : s.exchanges b = .ok ((members.filter (·.isExchange)).map (·.id)) :=
    Outcome.bind_eq_ok.mpr ⟨members, hmembers, rfl⟩
  obtain ⟨_, inputs, _, hinputs, _⟩ :=
    Session.exists_collect h.linked h.acyclic hx (Session.feeds _)
  have hlength := h.length_collect hes howned hinputs
  rw [buildSide, Session.node_eq_ok.mpr hn]
  simp [bind, Except.bind, pure, Except.pure, hb, hes, hinputs, ← hlength]

end Split

namespace Session

variable {s s' : Session} {y : Fragment} {o : FragmentId}

/-- A fragment that feeds a cut can be moved there after others. -/
theorem Recut.exists_moveInput {cut : Session} {x : Fragment} {c : FragmentId}
    {done : List FragmentId} (hr : s.Recut cut x []) (h : s.Coherent)
    (howned : s.Owned x.root (some o)) (hy : s.fragment? o = some y) (hnodup : (c :: done).Nodup)
    (hfeeds : ∀ f ∈ c :: done, s.Feeds x.root f)
    (hdone : done.foldlM (moveInput x.id) cut = .ok s') :
    ∃ s'', s'.moveInput x.id c = .ok s'' := by
  have hne : o ≠ x.id := hr.parted.id_ne hy
  have hlisted (f : FragmentId) (hf : f ∈ c :: done) : cut.Listed x.id (some o) f :=
    h.listed_of_recut hr howned (hfeeds f hf)
  obtain ⟨hc, hnodup⟩ := List.nodup_cons.mp hnodup
  have hrehomed : cut.Rehomed s' x.id done :=
    .of_foldlM (fun hl hs ↦ .of_moveInput hl hne hs) hnodup
      (fun f hf ↦ hlisted f (List.mem_cons_of_mem _ hf)) hdone
  have hlisted := hlisted c List.mem_cons_self
  have hsource : cut.fragment? o = some y := by
    rw [hr.other hne, hy, Option.map_some, Fragment.rehomed_nil]
  have hmem : c ∈ y.children := by
    rw [h.linked.mem_children hy, ← hr.parent?_of_not_mem List.not_mem_nil]
    exact hlisted.parent
  exact hrehomed.exists_moveInput hlisted.ne hc hlisted.parent hsource hne hmem ⟨_, hr.cut⟩

/-- Nodes of a fragment can be cut off. The exchanges at the bottom are in the cut, and the
fragments that feed them can be moved there one after the other. -/
theorem Coherent.exists_cut (h : s.Coherent) {b : NodeId} {n : Node} (hn : s.node? b = some n)
    (howned : s.Owned b (some o)) (hy : s.fragment? o = some y) {inputs : List FragmentId}
    (hnodup : inputs.Nodup) (hfeeds : ∀ f ∈ inputs, s.Feeds b f) (partitioning : Partitioning)
    (sink : SinkKind) :
    ∃ f cut, s.createFragment b partitioning = .ok (f, cut) ∧
      (∀ e m, s.Reach Node.inner b e → s.node? e = some m →
        Split.checkExchange (cut.setSink f sink) f e = .ok ()) ∧
      ∀ done c rest moved, inputs = done ++ c :: rest →
        done.foldlM (moveInput f) (cut.setSink f sink) = .ok moved →
          ∃ moved', moved.moveInput f c = .ok moved' := by
  obtain ⟨cut, hcreate, hcut⟩ := h.createFragment_of_owned howned hn partitioning
  have hsink := hcut.setSink sink
  refine ⟨_, cut, hcreate, fun e m he hm ↦ ?_, fun done c rest moved hinputs hdone ↦ ?_⟩
  · have hm' := hsink.moved he hm
    rw [Split.checkExchange, node_eq_ok.mpr hm']
    exact if_neg fun hne ↦ hne rfl
  · rw [hinputs] at hnodup hfeeds
    have hperm : (done ++ c :: rest).Perm (c :: done ++ rest) := List.perm_middle
    refine hsink.exists_moveInput h howned hy ?_ (fun f hf ↦ ?_) hdone
    · exact (hperm.nodup hnodup).sublist (List.sublist_append_left _ _)
    · exact hfeeds f (hperm.mem_iff.mpr (List.mem_append_left _ hf))

end Session

namespace Splitting.Progress

open Split

variable {st : Splitting} {top : NodeId}

/-- An extraction fails only if the join has an equality without right operand. -/
theorem failsOnly_extract (h : st.Progress top) (hbinary : st.session.Binary) {i : FragmentId}
    {j : NodeId} (hready : st.session.Ready i j) (cohort : CohortId) :
    FailsOnly (extract j cohort) st st.session.Unkeyed := by
  obtain ⟨n, join, hn, hkind, htable, rfl, hskipped, hpristine⟩ := hready
  obtain ⟨y, hy, _⟩ := h.coherent.connected hn (h.owned hn)
  obtain ⟨b, hb⟩ := (hbinary n (Numbered.mem_of_get? hn)).exists_build hkind
  have hbuild := (Session.build_iff hn).mpr hb
  have howned := h.owned_build hn hkind htable hb (hpristine b hbuild)
  obtain ⟨side, hside⟩ := exists_buildSide h.coherent hn hy hb howned
  obtain ⟨hb', hfragment, hes, hcollect⟩ := buildSide_eq_ok hn hside
  obtain rfl := Option.some.inj (hb.symm.trans hb')
  have hinputs {f : FragmentId} := h.coherent.mem_collect hes howned hcollect (f := f)
  have hvalid : st.tables.peek.isValid = true := by
    rw [h.tables_peek]
    exact Id.isValid_ofNat _
  -- Once the join has its table, its build side can be cut off.
  have hplan := h.coherent.ordered.plan_setTable st.tables.peek hn hkind
  obtain ⟨m, hm⟩ := h.coherent.tree.child (Session.child_of_build hbuild)
  obtain ⟨m', hm', _⟩ := Session.exists_node?_of_plan hplan hm
  have hcut := (h.coherent.setTable st.tables.peek hn hkind).exists_cut hm'
    (howned.setTable st.tables.peek hn hkind h.coherent.ordered) hy
    (Session.nodup_collect hcollect)
    (fun f hf ↦ (Session.feeds_of_plan hplan).symm ▸ hinputs.mp hf)
  unfold extract
  refine failsOnly_bind (failsOnly_ask_of_ok hside) fun _ _ askSide ↦ ?_
  obtain ⟨hside', rfl⟩ := runs_ask.mp askSide
  obtain rfl := Except.ok.inj (hside.symm.trans hside')
  refine failsOnly_bind failsOnly_takeTable fun _ _ takeTable ↦ ?_
  obtain ⟨rfl, rfl⟩ := runs_takeTable.mp takeTable
  refine failsOnly_bind (failsOnly_change fun e he ↦ ?_) fun _ _ assign ↦ ?_
  · obtain ⟨halgorithm, c, hc, hoperand, rfl⟩ :=
      Join.buildKeys_eq_error (Session.assignJoin_eq_error hn hkind hvalid htable he)
    exact ⟨j, n, join, c, hn, hkind, hskipped, halgorithm, hc, hoperand, rfl⟩
  obtain ⟨_, hassign, rfl⟩ := runs_change.mp assign
  obtain ⟨keys, _, rfl, rfl⟩ := Session.assignJoin_eq_ok hn hkind hassign
  refine failsOnly_bind (failsOnly_ask_of_ok (a := y) ?_) fun _ _ askFragment ↦ ?_
  · rw [hfragment]
    exact Session.fragment_eq_ok.mpr hy
  obtain ⟨_, rfl⟩ := runs_ask.mp askFragment
  obtain ⟨f, cut, hcreate, hcheck, hmove⟩ := hcut _ (.joinBuild st.tables.peek keys)
  refine failsOnly_bind (failsOnly_change_of_ok hcreate) fun _ _ create ↦ ?_
  obtain ⟨_, hcreate', rfl⟩ := runs_change.mp create
  obtain ⟨rfl, rfl⟩ := Prod.mk.inj (Except.ok.inj (hcreate.symm.trans hcreate'))
  refine failsOnly_bind (failsOnly_update _) fun _ _ setSink ↦ ?_
  obtain rfl := runs_update.mp setSink
  refine failsOnly_bind (failsOnly_forM fun done e rest hl mid hrun ↦ ?_) fun _ _ check ↦ ?_
  · obtain rfl := eq_of_forM_ask hrun
    have hmem : e ∈ side.exchanges := by
      rw [hl]
      exact List.mem_append_right _ List.mem_cons_self
    obtain ⟨he, k, _, hk, _⟩ := (Session.mem_exchanges hes).mp hmem
    obtain ⟨k', hk', _⟩ := Session.exists_node?_of_plan hplan hk
    rw [← Session.inside_of_plan hplan] at he
    exact failsOnly_ask_of_ok (hcheck e k' he hk')
  obtain rfl := eq_of_forM_ask check
  refine failsOnly_bind (failsOnly_forM fun done c rest hl mid hrun ↦ ?_) fun _ _ _ ↦ ?_
  · obtain ⟨moved, hdone, rfl⟩ := foldlM_of_forM_change hrun
    obtain ⟨moved', hmoved⟩ := hmove done c rest moved hl hdone
    exact failsOnly_change_of_ok (Outcome.bind_eq_ok.mpr ⟨moved', hmoved, rfl⟩)
  refine failsOnly_bind failsOnly_takePlan fun _ _ _ ↦ ?_
  refine failsOnly_bind (failsOnly_update _) fun _ _ _ ↦ ?_
  exact failsOnly_bind (failsOnly_modify _) fun _ _ _ ↦ failsOnly_pure _

end Splitting.Progress

end QueryPlanning
