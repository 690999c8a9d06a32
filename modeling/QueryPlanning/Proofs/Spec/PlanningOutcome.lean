import QueryPlanning.Proofs.Plan.SinkEstimates
import QueryPlanning.Proofs.Plan.SplitFailures
import QueryPlanning.Proofs.Spec.ExtractedJoins

/-!
# The outcome of planning

A plan that was built from a specification can be split and its sinks can be estimated, unless a
join lacks a build key or the plan writes to a table in a format without writer. No other error
occurs, so the promises between the parts of the planner are kept.
-/

namespace QueryPlanning

namespace Split

variable {s : Session} {root : FragmentId}

/-- The recursion is granted more depth than there are nodes. -/
theorem lt_depth (h : s.Ordered) {i : NodeId} {n : Node} (hn : s.node? i = some n) :
    i.val < depth s := by
  have hlt := h.lt_length hn
  unfold depth
  omega

/-- The split of a complete plan has enough depth and fails only where an extraction does. -/
theorem failsOnly_start (h : s.WellFormed root) (hbinary : s.Binary) :
    FailsOnly (start root) { session := s } s.Unkeyed := by
  obtain ⟨x, hx, hdest⟩ := h.destination.mp rfl
  have hparent : x.parent = none := h.coherent.orphan hx hdest
  obtain ⟨n, hn, _⟩ := h.coherent.root hx
  have hdue := h.due hx
  unfold start
  refine failsOnly_bind (failsOnly_ask_of_ok (Session.fragment_eq_ok.mpr hx)) fun _ _ ask ↦ ?_
  obtain ⟨hy, rfl⟩ := runs_ask.mp ask
  obtain rfl := Except.ok.inj ((Session.fragment_eq_ok.mpr hx).symm.trans hy)
  rw [if_neg (by rw [hparent]; exact Bool.false_ne_true)]
  refine failsOnly_bind failsOnly_takePlan fun _ _ takePlan ↦ ?_
  obtain ⟨rfl, rfl⟩ := runs_takePlan.mp takePlan
  refine failsOnly_bind failsOnly_takeCohort fun _ _ takeCohort ↦ ?_
  obtain ⟨rfl, rfl⟩ := runs_takeCohort.mp takeCohort
  refine failsOnly_bind (failsOnly_update _) fun _ _ setPlan ↦ ?_
  obtain rfl := runs_update.mp setPlan
  refine failsOnly_bind (failsOnly_modify _) fun _ _ addRoot ↦ ?_
  obtain rfl := runs_modify.mp addRoot
  refine failsOnly_bind failsOnly_get fun _ _ get ↦ ?_
  obtain ⟨rfl, rfl⟩ := runs_get.mp get
  refine failsOnly_bind ?_ fun _ _ _ ↦ failsOnly_bind failsOnly_get fun _ _ _ ↦ failsOnly_pure _
  have hdepth := lt_depth hdue.progress.coherent.ordered hn
  exact Splitting.refuses _ _ _ _ _ _ hdue hbinary hdepth

end Split

namespace Session

variable {s s' : Session} {root : FragmentId} {roots : List FragmentId}

/-- The equalities of all hash joins that no subplan evaluates have right operands. -/
def Keyed (s : Session) : Prop :=
  ∀ j n join, s.node? j = some n → n.kind = .join join → ¬s.Evaluated j → join.Keyed

theorem Unkeyed.not_keyed {e : Error} (h : s.Unkeyed e) (hbinary : s.Binary) : ¬s.Keyed := by
  obtain ⟨j, n, join, c, hn, hkind, hskipped, halgorithm, hc, hoperand, _⟩ := h
  rw [hbinary.skipped_iff] at hskipped
  intro hkeyed
  have hsome := hkeyed j n join hn hkind hskipped halgorithm c hc
  rw [hoperand] at hsome
  cases hsome

/-- A split fails only if a join that is to be split off lacks a key. -/
theorem WellFormed.unkeyed (h : s.WellFormed root) (hbinary : s.Binary) {e : Error}
    (hrun : s.createPlans root = (.error e, s')) : s.Unkeyed e := by
  have hfails := Split.failsOnly_start h hbinary
  cases hstart : (Split.start root).run.run { session := s } with
  | mk result st =>
    rw [createPlans, hstart] at hrun
    obtain ⟨rfl, rfl⟩ := Prod.mk.inj hrun
    exact hfails e st hstart

/-- A split stores all build sides by their keys, so it does not succeed if a key is missing. -/
theorem WellFormed.keyed (h : s.WellFormed root) (hbinary : s.Binary)
    (hrun : s.createPlans root = (.ok roots, s')) : s.Keyed := by
  intro j n join hn hkind hevaluated
  have hsplit := h.split hrun
  obtain ⟨st, top, rfl, rfl, hc⟩ := h.complete hrun
  obtain ⟨n', hn', hplain⟩ := exists_node?_of_plan hsplit.plan hn
  obtain ⟨table, hkind'⟩ := Node.exists_join_of_plain hplain hkind
  have hskipped : ¬st.session.Skipped j := by
    rw [skipped_of_plan hsplit.plan, hbinary.skipped_iff]
    exact hevaluated
  have hvalid := (hc.settled.tabled (hc.below hn') hn' hkind').mpr hskipped
  obtain ⟨k, f, _, htable, hf, _⟩ := hc.progress.tabled hn' hkind' hvalid
  obtain ⟨m, j', n'', join', keys, _, hn'', hkind'', htable'', _, hkeys, _⟩ := hc.progress.build hf
  obtain rfl := hc.table_injective hn' hkind' hn'' hkind'' hvalid (htable.trans htable''.symm)
  obtain rfl := Option.some.inj (hn'.symm.trans hn'')
  obtain rfl := NodeKind.join.inj (hkind'.symm.trans hkind'')
  have hkeyed : Join.Keyed { join with table } := Join.keyed_of_buildKeys hkeys
  exact hkeyed

end Session

namespace PlanSpec

variable {spec : PlanSpec} {catalog : Catalog} {cluster : Cluster} {options : Options}
  {root : FragmentId} {s : Session}

/-- If the plan writes to a table, then to one in a format with writer. -/
def Writable (spec : PlanSpec) (catalog : Catalog) : Prop :=
  ∀ sink, spec.sink = some sink →
    ∃ t, catalog.tableNamed sink.table = .ok t ∧ t.majorityFormat.Writable

theorem exists_table_of_toSink {spec : SinkSpec} {sink : TableSink}
    (h : spec.toSink catalog = .ok sink) :
    ∃ t, catalog.tableNamed spec.table = .ok t ∧ sink = {
      table := t.fullName, op := .insert, format := t.majorityFormat, keys := spec.keys,
      overwrite := spec.overwrite, clustered := spec.clustered,
      partitions := spec.partitions.getD (-1) } := by
  simp only [SinkSpec.toSink, Outcome.bind_eq_ok, Outcome.pure_eq_ok] at h
  obtain ⟨t, ht, sink', hcreate, rfl⟩ := h
  simp only [TableSink.create, ne_eq, not_true, if_false] at hcreate
  obtain rfl := Outcome.pure_eq_ok.mp hcreate
  exact ⟨t, ht, rfl⟩

/-- The rows of the topmost fragment go where the specification says. -/
theorem exists_sink_of_buildFrom (h : spec.buildFrom catalog cluster options = .ok (root, s)) :
    ∃ x kind, s.fragment? root = some x ∧ spec.sinkKind catalog = .ok kind ∧
      x.sink = some { fragment := root, kind } := by
  obtain ⟨x, hx, _⟩ := (wellFormed_of_buildFrom h).destination.mp rfl
  simp only [buildFrom, Outcome.bind_eq_ok, Outcome.pure_eq_ok] at h
  obtain ⟨_, _, ⟨f, s'⟩, _, kind, hkind, h⟩ := h
  obtain ⟨rfl, rfl⟩ := Prod.mk.inj h
  refine ⟨x, kind, hx, hkind, ?_⟩
  rw [Session.fragment?_setSink, if_pos rfl, Option.map_eq_some_iff] at hx
  obtain ⟨y, _, rfl⟩ := hx
  rfl

theorem estimable_iff {x : Fragment} {kind : SinkKind} (hkind : spec.sinkKind catalog = .ok kind)
    (hsink : x.sink = some { fragment := root, kind }) :
    x.Estimable ↔ spec.Writable catalog := by
  unfold sinkKind at hkind
  cases hspec : spec.sink with
  | none =>
    rw [hspec] at hkind
    obtain rfl := Except.ok.inj hkind
    refine iff_of_true (fun k sink hk htable ↦ ?_) fun sink hwrite ↦ ?_
    · obtain rfl := Option.some.inj (hsink.symm.trans hk)
      cases htable
    · cases hspec.symm.trans hwrite
  | some write =>
    rw [hspec] at hkind
    obtain ⟨sink, hcreate, rfl⟩ := Outcome.map_eq_ok.mp hkind
    obtain ⟨t, ht, rfl⟩ := exists_table_of_toSink hcreate
    constructor
    · intro h write' hwrite
      obtain rfl := Option.some.inj (hspec.symm.trans hwrite)
      exact ⟨t, ht, h _ _ hsink rfl⟩
    · intro h k sink' hk htable
      obtain rfl := Option.some.inj (hsink.symm.trans hk)
      obtain rfl := SinkKind.table.inj htable
      obtain ⟨t', ht', hwritable⟩ := h write hspec
      obtain rfl := Except.ok.inj (ht.symm.trans ht')
      exact hwritable

end PlanSpec

namespace Session

variable {spec : PlanSpec} {catalog catalog' : Catalog} {cluster : Cluster} {options : Options}
  {root : FragmentId} {s : Session}

/-- The ways in which planning ends. -/
theorem planParallel_cases (h : spec.buildFrom catalog cluster options = .ok (root, s)) :
    (∃ e, s.Unkeyed e ∧ s.planParallel root = .error e) ∨
      s.Keyed ∧ ((spec.Writable catalog ∧ ∃ result, s.planParallel root = .ok result) ∨
        ∃ format : FileFormat, ¬format.Writable ∧ ¬spec.Writable catalog ∧
          s.planParallel root = .error (.sinkFormat format)) := by
  have hwf := PlanSpec.wellFormed_of_buildFrom h
  have hbinary := (PlanSpec.shaped_of_buildFrom h).1
  obtain ⟨x, kind, hx, hkind, hsink⟩ := PlanSpec.exists_sink_of_buildFrom h
  unfold planParallel
  rcases hrun : s.createPlans root with ⟨e | roots, s'⟩
  · exact .inl ⟨e, hwf.unkeyed hbinary hrun, rfl⟩
  · refine .inr ⟨hwf.keyed hbinary hrun, ?_⟩
    have hsplit := hwf.split hrun
    obtain ⟨children, hx'⟩ := hsplit.top hx
    have hhead := hsplit.head hwf
    obtain ⟨st, top, rfl, rfl, hc⟩ := hwf.complete hrun
    have hwritable : Fragment.Estimable { x with plan := ⟨0⟩, cohort := ⟨0⟩, children } ↔
      spec.Writable catalog := PlanSpec.estimable_iff hkind hsink
    rcases hc.estimateSinks_cases hhead hx' with
      ⟨hgood, s', hs'⟩ | ⟨_, ⟨k, sink, hk, htable, hformat, rfl⟩, he⟩
    · refine .inl ⟨hwritable.mp hgood, (st.roots, s'), ?_⟩
      exact Outcome.bind_eq_ok.mpr ⟨_, rfl, Outcome.bind_eq_ok.mpr ⟨s', hs', rfl⟩⟩
    · refine .inr ⟨sink.format, hformat, ?_, ?_⟩
      · rw [← hwritable]
        exact fun hgood ↦ hformat (hgood k sink hk htable)
      · simp only [bind, Except.bind, he]

/-- Planning succeeds if and only if the joins that are split off have their keys and the table
that is written to, if there is one, has a format with writer. An internal error means that a key is
missing, and an unsupported operation that all keys are there but not the writer; there are no other
errors. -/
theorem planParallel_outcome
    (hbuild : spec.build catalog cluster options = (.ok (root, s), catalog')) :
    ((∃ result, s.planParallel root = .ok result) ↔ s.Keyed ∧ spec.Writable catalog') ∧
    ((∃ e, s.planParallel root = .error e ∧ e.kind = .internal) ↔ ¬s.Keyed) ∧
    ((∃ e, s.planParallel root = .error e ∧ e.kind = .notSupported) ↔
      s.Keyed ∧ ¬spec.Writable catalog') ∧
    ∀ e, s.planParallel root = .error e →
      (∃ j n join c, s.node? j = some n ∧ n.kind = .join join ∧ ¬s.Evaluated j ∧
        join.algorithm = .hash ∧ c ∈ join.equalities ∧ c.operand? 1 = none ∧
        e = .conjunctWithoutOperand c.sql) ∨
      ∃ format : FileFormat, ¬format.Writable ∧ e = .sinkFormat format := by
  have hfrom := PlanSpec.buildFrom_of_build hbuild
  have hbinary := (PlanSpec.shaped_of_buildFrom hfrom).1
  rcases planParallel_cases hfrom with ⟨e, hunkeyed, he⟩ |
    ⟨hkeyed, ⟨hwritable, result, hok⟩ | ⟨format, hformat, hwritable, he⟩⟩
  case inl =>
    have hkeyed := hunkeyed.not_keyed hbinary
    obtain ⟨j, n, join, c, hn, hkind, hskipped, halgorithm, hc, hoperand, rfl⟩ := hunkeyed
    rw [hbinary.skipped_iff] at hskipped
    have heq {e : Error} (h : s.planParallel root = .error e) : e = .conjunctWithoutOperand c.sql :=
      Except.error.inj (h.symm.trans he)
    refine ⟨?_, ?_, ?_, fun e h ↦ ?_⟩
    · exact iff_of_false (fun ⟨_, hok⟩ ↦ nomatch hok.symm.trans he) fun h ↦ hkeyed h.1
    · exact iff_of_true ⟨_, he, rfl⟩ hkeyed
    · exact iff_of_false (fun ⟨_, h, hk⟩ ↦ by cases heq h; cases hk) fun h ↦ hkeyed h.1
    · exact .inl ⟨j, n, join, c, hn, hkind, hskipped, halgorithm, hc, hoperand, heq h⟩
  case inr.inl =>
    have hno {e : Error} : s.planParallel root ≠ .error e := fun h ↦ nomatch hok.symm.trans h
    refine ⟨?_, ?_, ?_, fun e h ↦ absurd h hno⟩
    · exact iff_of_true ⟨result, hok⟩ ⟨hkeyed, hwritable⟩
    · exact iff_of_false (fun ⟨_, h, _⟩ ↦ hno h) fun h ↦ h hkeyed
    · exact iff_of_false (fun ⟨_, h, _⟩ ↦ hno h) fun h ↦ h.2 hwritable
  case inr.inr =>
    have heq {e : Error} (h : s.planParallel root = .error e) : e = .sinkFormat format :=
      Except.error.inj (h.symm.trans he)
    refine ⟨?_, ?_, ?_, fun e h ↦ .inr ⟨format, hformat, heq h⟩⟩
    · exact iff_of_false (fun ⟨_, hok⟩ ↦ nomatch hok.symm.trans he) fun h ↦ hwritable h.2
    · exact iff_of_false (fun ⟨_, h, hk⟩ ↦ by cases heq h; cases hk) fun h ↦ h hkeyed
    · exact iff_of_true ⟨_, he, rfl⟩ ⟨hkeyed, hwritable⟩

end Session

namespace PlanSpec

/-- A join whose only equality has no right operand. -/
def oneSided : PlanSpec where
  root := .join { equalities := [.slot none "flag"] } .singularRow .singularRow

theorem exists_build_oneSided : ∃ s : Session,
    oneSided.build {} {} {} = (.ok (⟨0⟩, s), {}) ∧ ¬∃ result, s.planParallel ⟨0⟩ = .ok result := by
  have hrun : (oneSided.buildFrom {} {} {}).toOption.map (fun built ↦
      (built.1, (built.2.planParallel built.1).toOption.isSome)) = some (⟨0⟩, false) := by
    decide +kernel
  obtain ⟨⟨root, s⟩, hs, h⟩ := Option.map_eq_some_iff.mp hrun
  obtain ⟨rfl, hnone⟩ := Prod.mk.inj h
  refine ⟨s, ?_, ?_⟩
  · rw [build_of_nil rfl, Outcome.toOption_eq_some.mp hs]
  · rintro ⟨result, hok⟩
    have hsome : (s.planParallel ⟨0⟩).toOption.isSome = true := by
      rw [hok]
      rfl
    cases hnone.symm.trans hsome

end PlanSpec

theorem Session.planParallel_outcome_oneSided : ∃ s : Session,
    PlanSpec.oneSided.build {} {} {} = (.ok (⟨0⟩, s), {}) ∧ ¬s.Keyed ∧
    ∃ e, s.planParallel ⟨0⟩ = .error e ∧ e.kind = .internal := by
  obtain ⟨s, hs, hfail⟩ := PlanSpec.exists_build_oneSided
  obtain ⟨hok, hinternal, _⟩ := planParallel_outcome hs
  have hkeyed : ¬s.Keyed := fun hkeyed ↦ hfail (hok.mpr ⟨hkeyed, nofun⟩)
  exact ⟨s, hs, hkeyed, hinternal.mpr hkeyed⟩

end QueryPlanning
