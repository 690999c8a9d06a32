import QueryPlanning.Proofs.Plan.ExtractionFailures
import QueryPlanning.Proofs.Plan.Settling

/-!
# Where a split fails

A split fails where an extraction does, and nowhere else. At every step of its loops the next join
or child is as it was when the loop began. Each step down leads to a fragment that begins at a node
with a smaller number, so the depth of the recursion suffices.
-/

namespace QueryPlanning

namespace Split

theorem failsOnly_cohortOf (js : List NodeId) (builds : Option CohortId) {st : Splitting}
    {allowed : Error → Prop} : FailsOnly (cohortOf js builds) st allowed := by
  unfold cohortOf
  split
  · exact failsOnly_pure _
  · exact failsOnly_pure _
  · exact failsOnly_map _ failsOnly_takeCohort

end Split

namespace Splitting

open Split

variable {st mid : Splitting} {top : NodeId} {i : FragmentId} {x y : Fragment} {js : List NodeId}
  {builds builds' : Option CohortId} {depth : Nat}

/-- With this depth, a split below a node with a smaller number fails only where an extraction
does. -/
def Refuses (depth : Nat) (top : NodeId) : Prop :=
  ∀ (st : Splitting) (i : FragmentId) (x : Fragment) (builds : Option CohortId),
    st.Due top i x builds → st.session.Binary → x.root.val < depth →
      FailsOnly (extractAll depth i builds) st st.session.Unkeyed

namespace Progress

/-- The loop over the joins of a fragment finds each join as it was. -/
theorem ready_of_joins (h : st.Progress top) (hy : st.session.fragment? i = some y)
    {cohort : CohortId} {done rest : List NodeId} {j : NodeId}
    (hbuilds : ∀ k ∈ done, builds = some cohort) (hcurrent : Current st.mark y builds)
    (hjs : (done ++ j :: rest).Nodup) (hready : ∀ k ∈ done ++ j :: rest, st.session.Ready i k)
    (hapart : ∀ k ∈ done ++ j :: rest, ∀ l ∈ done ++ j :: rest, k ≠ l → st.session.Apart k l)
    (hrun : Runs (done.forM fun k ↦ do
      let f ← extract k cohort
      extractAll depth f none) st () mid) :
    mid.Progress top ∧ mid.session.plan = st.session.plan ∧ mid.session.Ready i j ∧
      ∃ children, mid.session.fragment? i = some { y with children } ∧
        Current mid.mark { y with children } builds := by
  obtain ⟨hnodup, _, hdisjoint⟩ := List.nodup_append.mp hjs
  have hmem {k : NodeId} (hk : k ∈ done) : k ∈ done ++ j :: rest := List.mem_append_left _ hk
  have hj : j ∈ done ++ j :: rest := List.mem_append_right _ List.mem_cons_self
  obtain ⟨hcourse, _⟩ := h.of_joins (settles depth top) hy hbuilds hcurrent hnodup
    (fun k hk ↦ hready k (hmem hk)) (fun k hk l hl ↦ hapart k (hmem hk) l (hmem hl)) hrun
  obtain ⟨children, hy', _⟩ := hcourse.confined.fragment hy (.inl rfl)
  refine ⟨hcourse.progress, hcourse.confined.plan, ?_, children, hy',
    hcurrent.mono hcourse.staged.le children⟩
  have hnew : j ∉ done := fun hk ↦ hdisjoint j hk j List.mem_cons_self rfl
  refine (hready j hj).confined hcourse.confined fun m hm ↦ ?_
  exact Session.not_joinsRegion h.coherent.tree hnew (fun k hk ↦ hapart k (hmem hk) j hj) hm

/-- The loop over the children of a fragment finds each child as it was. -/
theorem pending_of_children (h : st.Progress top) (hy : st.session.fragment? i = some y)
    (hcurrent : Current st.mark y builds) {done rest : List FragmentId} {c : FragmentId}
    (hcs : (done ++ c :: rest).Nodup) (hpending : ∀ d ∈ done ++ c :: rest, st.session.Pending i d)
    (hrun : Runs (done.forM fun d ↦ do
      let _ ← ask fun s ↦ s.fragment d
      update fun s ↦ s.setPlan d y.plan y.cohort
      extractAll depth d builds) st () mid) :
    mid.Progress top ∧ mid.session.plan = st.session.plan ∧ mid.session.Pending i c ∧
      ∃ children, mid.session.fragment? i = some { y with children } ∧
        Current mid.mark { y with children } builds := by
  obtain ⟨hnodup, _, hdisjoint⟩ := List.nodup_append.mp hcs
  have hc : c ∉ done := fun hmem ↦ hdisjoint c hmem c List.mem_cons_self rfl
  have hdone (d : FragmentId) (hd : d ∈ done) := hpending d (List.mem_append_left _ hd)
  have hnext := hpending c (List.mem_append_right _ List.mem_cons_self)
  obtain ⟨hcourse, _⟩ := h.of_children (settles depth top) hy hcurrent hnodup hdone hrun
  obtain ⟨children, hy', _⟩ := hcourse.confined.fragment hy (.inl rfl)
  refine ⟨hcourse.progress, hcourse.confined.plan, ?_, children, hy',
    hcurrent.mono hcourse.staged.le children⟩
  obtain ⟨z, hz, hparent, _⟩ := id hnext
  refine (hnext.confined h.coherent hcourse.confined fun w hw m hm ↦ ?_).1
  obtain rfl := Option.some.inj (hz.symm.trans hw)
  exact h.not_belowRoots hz hparent hc hdone hm

end Progress

namespace Due

/-- One step of the loop over the joins fails only where an extraction does. -/
theorem failsOnly_join (hdepth : Refuses depth top) (h : st.Progress top)
    (hy : st.session.fragment? i = some y) (hbinary : st.session.Binary) {j : NodeId}
    (hready : st.session.Ready i j) {cohort : CohortId}
    (hcurrent : Current st.mark y (some cohort)) (hj : j.val ≤ depth) :
    FailsOnly (do
      let f ← extract j cohort
      extractAll depth f none) st st.session.Unkeyed := by
  refine failsOnly_bind (h.failsOnly_extract hbinary hready cohort) fun f mid hextract ↦ ?_
  obtain ⟨x, rfl, hcut⟩ := h.of_extract hy hready (hcurrent.builds rfl).1 hextract
  have hlt := h.coherent.tree.lt (Session.child_of_build hcut.build)
  have hrest := hdepth _ _ _ _ (h.due_of_cut hready hcurrent hcut)
    (hbinary.of_plan hcut.confined.plan) (by omega)
  exact failsOnly_mono hrest fun e he ↦ he.of_plan hcut.confined.plan.symm

/-- One step of the loop over the children fails only where an extraction does. -/
theorem failsOnly_child (hdepth : Refuses depth top) (h : st.Progress top)
    (hbinary : st.session.Binary) {c : FragmentId} {z : Fragment}
    (hz : st.session.fragment? c = some z) (hparent : z.parent = some i)
    (hpristine : st.session.Pristine z.root) (hcurrent : Current st.mark y builds)
    (hz' : z.root.val < depth) :
    FailsOnly (do
      let _ ← ask fun s ↦ s.fragment c
      update fun s ↦ s.setPlan c y.plan y.cohort
      extractAll depth c builds) st st.session.Unkeyed := by
  refine failsOnly_bind (failsOnly_ask_of_ok (Session.fragment_eq_ok.mpr hz)) fun _ _ hask ↦ ?_
  obtain ⟨_, rfl⟩ := runs_ask.mp hask
  refine failsOnly_bind (failsOnly_update _) fun _ _ hupdate ↦ ?_
  obtain rfl := runs_update.mp hupdate
  exact hdepth _ _ _ _ (h.due_of_child hz hparent hpristine hcurrent) hbinary hz'

end Due

/-- The recursion over a fragment fails only where one of its steps does. -/
theorem refuses_succ (hdepth : Refuses depth top) : Refuses (depth + 1) top := by
  intro st i x builds h hbinary hlt
  have hp := h.progress
  obtain ⟨n, hn, _⟩ := hp.coherent.root h.fragment
  obtain ⟨js, hjs⟩ := hp.coherent.tree.exists_joins hp.coherent.ordered hn
  unfold extractAll
  refine failsOnly_bind (failsOnly_ask_of_ok (a := js) ?_) fun _ _ askJoins ↦ ?_
  · exact Outcome.bind_eq_ok.mpr ⟨x, Session.fragment_eq_ok.mpr h.fragment, hjs⟩
  obtain ⟨hjs', rfl⟩ := runs_ask.mp askJoins
  obtain ⟨x', hx', hjs'⟩ := Outcome.bind_eq_ok.mp hjs'
  rw [Session.fragment_eq_ok, h.fragment] at hx'
  obtain rfl := Option.some.inj hx'
  obtain rfl := Except.ok.inj (hjs.symm.trans hjs')
  refine failsOnly_bind (failsOnly_cohortOf js builds) fun builds' mid takeCohort ↦ ?_
  obtain ⟨h₁, hsession, hbuilds, _⟩ := h.of_cohortOf takeCohort
  have hp₁ := h₁.progress
  rw [← hsession] at hjs hbinary ⊢
  refine failsOnly_bind (failsOnly_forM fun done j rest hl mid' hrun ↦ ?_) fun _ mid' joins ↦ ?_
  · have hmem : j ∈ js := hl ▸ List.mem_append_right _ List.mem_cons_self
    have hnodup := Session.nodup_joins hp₁.coherent.tree hjs
    obtain ⟨hp', hplan, hready, children, hy, hcurrent⟩ := hp₁.ready_of_joins h₁.fragment
      (fun k hk ↦ hbuilds k (hl ▸ List.mem_append_left _ hk)) h₁.current (hl ▸ hnodup)
      (fun k hk ↦ hp₁.ready_of_mem_joins h₁.fragment h₁.pristine h₁.clear hjs (hl ▸ hk))
      (fun k hk l hk' _ ↦ hp₁.apart_of_mem_joins hjs (hl ▸ hk) (hl ▸ hk')) hrun
    have hreach := ((Session.mem_joins hjs).mp hmem).1
    have hle := hp₁.coherent.tree.le_of_below
      (hreach.mono fun n ↦ (Node.probed_sublist n).subset)
    rw [hbuilds j hmem] at hcurrent
    have hstep := Due.failsOnly_join hdepth hp' hy (hbinary.of_plan hplan) hready hcurrent
      (by omega)
    exact failsOnly_mono hstep fun e he ↦ he.of_plan hplan.symm
  · obtain ⟨hcourse, cs, hdrained⟩ := h₁.joins (settles depth top) hjs hbuilds joins
    have hp' := hdrained.progress
    refine failsOnly_bind (failsOnly_ask_of_ok (Session.fragment_eq_ok.mpr hdrained.fragment))
      fun y _ askFragment ↦ ?_
    obtain ⟨hy, rfl⟩ := runs_ask.mp askFragment
    rw [Session.fragment_eq_ok, hdrained.fragment] at hy
    obtain rfl := Option.some.inj hy
    refine failsOnly_forM fun done c rest hl mid'' hrun ↦ ?_
    obtain ⟨hp'', hplan, ⟨z, hz, hparent, hpristine⟩, children, hy, hcurrent⟩ :=
      hp'.pending_of_children hdrained.fragment (h₁.current.mono hcourse.staged.le cs)
        (hl ▸ hp'.coherent.linked.nodup hdrained.fragment)
        (fun d hd ↦ hp'.pending_child hdrained.fragment h₁.pristine hcourse.confined
          hdrained.off (hl ▸ hd)) hrun
    obtain ⟨w, hw, _, hlt'⟩ := hp''.coherent.below_parent hz hparent
    obtain rfl := Option.some.inj (hy.symm.trans hw)
    have hdown : z.root.val < x.root.val := hlt'
    have hplan' := hplan.trans hcourse.confined.plan
    have hstep := Due.failsOnly_child hdepth hp'' (hbinary.of_plan hplan') hz hparent hpristine
      hcurrent (by omega)
    exact failsOnly_mono hstep fun e he ↦ he.of_plan hplan'.symm

/-- A split fails only if some join that is to be split off has an equality without right
operand. -/
theorem refuses (depth : Nat) (top : NodeId) : Refuses depth top := by
  induction depth with
  | zero =>
    intro st i x builds h _ hlt
    obtain ⟨n, hn, _⟩ := h.progress.coherent.root h.fragment
    have hpos := h.progress.coherent.ordered.val_nonneg hn
    omega
  | succ depth ih => exact refuses_succ ih

end Splitting

end QueryPlanning
