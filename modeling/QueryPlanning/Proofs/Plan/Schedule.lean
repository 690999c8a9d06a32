import Mathlib.Data.Int.Order.Basic
import Mathlib.Order.Basic
import QueryPlanning.Proofs.Plan.Locality

/-!
# The numbers of plans and cohorts

A join whose build side is split off ties two plans together: the one that executes the join and the
one that fills its table. Plans and cohorts get their numbers while a plan is split. What a part of
a split does for the joins of a region is said here by the numbers that were next before and after
it. In this way, what two parts do for regions that have nothing in common adds up.
-/

namespace QueryPlanning

/-- The fragment apart from its children, which come and go during a split. -/
def Fragment.stem (x : Fragment) : Fragment := { x with children := [] }

namespace Session

variable {s s' : Session} {R R' : NodeId → Prop} {o : FragmentId} {j : NodeId}
  {u u' v v' : Fragment}

/-- The join `j` of the fragment `u` has a table, and the fragment `v` is the root of the plan that
fills it. -/
def Supplied (s : Session) (j : NodeId) (u v : Fragment) : Prop :=
  ∃ n join x f y, s.node? j = some n ∧ n.kind = .join join ∧ join.table.isValid = true ∧
    s.fragment? n.fragment = some x ∧ x.stem = u ∧ s.fragment? f = some y ∧ y.stem = v ∧
    s.Build j y.root

theorem Supplied.root_below (h : s.Supplied j u v) (hs : s.Coherent) {k : FragmentId}
    {z : Fragment} (hz : s.fragment? k = some z) (hj : s.Below z.root j) :
    s.Below z.root u.root := by
  obtain ⟨n, _, x, _, _, hn, _, _, hx, rfl, _⟩ := h
  exact hs.root_below (x := x) hz hn hx hj

/-- Where a fragment with a join begins below a node, no join elsewhere is below the fragment. -/
theorem Supplied.not_below (h : s.Supplied j u v) (hs : s.Coherent) {k : FragmentId}
    {z : Fragment} (hz : s.fragment? k = some z) (hj : s.Below z.root j) {i : NodeId}
    (hi : ¬s.Below z.root i) : ¬s.Below u.root i :=
  fun hbelow ↦ hi ((h.root_below hs hz hj).trans hbelow)

theorem Coherent.supplied_unique (h : s.Coherent) (hs : s.Supplied j u v)
    (hs' : s.Supplied j u' v') : u = u' ∧ v = v' := by
  obtain ⟨n, _, x, f, y, hn, _, _, hx, rfl, hy, rfl, hb⟩ := hs
  obtain ⟨n', _, x', f', y', hn', _, _, hx', rfl, hy', rfl, hb'⟩ := hs'
  obtain rfl := Option.some.inj (hn.symm.trans hn')
  obtain rfl := Option.some.inj (hx.symm.trans hx')
  have hroot := build_unique hb hb'
  obtain rfl := h.eq_of_root hy hy' hroot
  obtain rfl := Option.some.inj (hy.symm.trans hy')
  exact ⟨rfl, rfl⟩

/-- With a join, a region has the build side and, unless it is `o`, the fragment of the join. -/
structure Enclosed (s : Session) (R : NodeId → Prop) (o : FragmentId) : Prop where
  build {j b : NodeId} : R j → s.Build j b → R b
  root {j : NodeId} {n : Node} {x : Fragment} : R j → s.node? j = some n →
    s.fragment? n.fragment = some x → n.fragment = o ∨ R x.root

theorem Coherent.enclosed_below (h : s.Coherent) {k : FragmentId} {z : Fragment}
    (hz : s.fragment? k = some z) (o : FragmentId) : s.Enclosed (s.Below z.root) o where
  build hj hb := hj.tail (child_of_build hb)
  root hj hn hx := .inr (h.root_below hz hn hx hj)

theorem Supplied.confined (h : s.Supplied j u v) (hR : s.Enclosed R o)
    (hc : s.Confined s' R' o) (hdisjoint : ∀ m, R m → ¬R' m) (hj : R j) : s'.Supplied j u v := by
  obtain ⟨n, join, x, f, y, hn, hkind, hvalid, hx, rfl, hy, rfl, hb⟩ := h
  obtain ⟨_, hx', _⟩ := hc.fragment hx ((hR.root hj hn hx).imp_right (hdisjoint _))
  obtain ⟨_, hy', _⟩ := hc.fragment hy (.inr (hdisjoint _ (hR.build hj hb)))
  refine ⟨n, join, _, f, _, (hc.node (hdisjoint j hj)).trans hn, hkind, hvalid, hx', rfl, hy', rfl,
    ?_⟩
  rw [build_of_plan hc.plan]
  exact hb

end Session

namespace Splitting.Progress

variable {st st' : Splitting} {top : NodeId}

/-- Every join with a table is supplied. -/
theorem exists_supplied (h : st.Progress top) {j : NodeId} {n : Node} {join : Join}
    (hn : st.session.node? j = some n) (hkind : n.kind = .join join)
    (hvalid : join.table.isValid = true) :
    ∃ x v, st.session.fragment? n.fragment = some x ∧ st.session.Supplied j x.stem v := by
  obtain ⟨x, hx, _⟩ := h.coherent.connected hn (h.owned hn)
  obtain ⟨_, f, y, _, _, hy, hb⟩ := h.tabled hn hkind hvalid
  exact ⟨x, y.stem, hx, n, join, x, f, y, hn, hkind, hvalid, hx, rfl, hy, rfl,
    (Session.build_iff hn).mpr hb⟩

/-- A change elsewhere does not change who supplies a join. -/
theorem supplied_iff (h : st.Progress top) (h' : st'.Progress top) {R R' : NodeId → Prop}
    {o : FragmentId} (hR : st.session.Enclosed R o)
    (hc : st.session.Confined st'.session R' o) (hdisjoint : ∀ m, R m → ¬R' m) {j : NodeId}
    (hj : R j) {u v : Fragment} :
    st'.session.Supplied j u v ↔ st.session.Supplied j u v := by
  refine ⟨fun hs' ↦ ?_, fun hs ↦ hs.confined hR hc hdisjoint hj⟩
  have hs := hs'
  obtain ⟨n, join, _, _, _, hn, hkind, hvalid, _⟩ := hs
  rw [hc.node (hdisjoint j hj)] at hn
  obtain ⟨x, v₀, _, hs⟩ := h.exists_supplied hn hkind hvalid
  obtain ⟨rfl, rfl⟩ := h'.coherent.supplied_unique hs' (hs.confined hR hc hdisjoint hj)
  exact hs

end Splitting.Progress

/-- The numbers of the next plan and of the next cohort. -/
structure Mark where
  plan : Int
  cohort : Int

def Splitting.mark (st : Splitting) : Mark := ⟨st.plans.next, st.cohorts.next⟩

namespace Mark

structure Le (m m' : Mark) : Prop where
  plan : m.plan ≤ m'.plan
  cohort : m.cohort ≤ m'.cohort

theorem Le.refl (m : Mark) : m.Le m := ⟨Int.le_refl _, Int.le_refl _⟩

theorem Le.trans {m m' m'' : Mark} (h : m.Le m') (h' : m'.Le m'') : m.Le m'' :=
  ⟨h.plan.trans h'.plan, h.cohort.trans h'.cohort⟩

end Mark

/-- A fragment has got its plan and its cohort before, and so has the cohort of the plans that fill
the tables of its joins, if that is allotted. -/
structure Current (m : Mark) (x : Fragment) (builds : Option CohortId) : Prop where
  plan : x.plan.val < m.plan
  cohort : x.cohort.val < m.cohort
  builds {c : CohortId} : builds = some c →
    c.isValid = true ∧ x.cohort.val < c.val ∧ c.val < m.cohort

theorem Current.mono {m m' : Mark} {x : Fragment} {builds : Option CohortId}
    (h : Current m x builds) (hm : m.Le m') (children : List FragmentId) :
    Current m' { x with children } builds where
  plan := h.plan.trans_le hm.plan
  cohort := h.cohort.trans_le hm.cohort
  builds hc := by
    obtain ⟨hvalid, hlt, hnext⟩ := h.builds hc
    exact ⟨hvalid, hlt, hnext.trans_le hm.cohort⟩

/-- Between two marks, while the joins of the plan `p` were supplied, a join of the fragment `u` has
got the root `v` of the plan that fills its table. If the join is one of the plan `p`, then the
cohort of the new plan is the one that was allotted, if there was one; otherwise the plan of the
join is new, too. -/
structure Timely (m m' : Mark) (p : PlanId) (builds : Option CohortId) (u v : Fragment) :
    Prop where
  plan : u.plan.val < v.plan.val
  cohort : u.cohort.val < v.cohort.val
  partitioning : v.partitioning = u.partitioning
  plan_lt : v.plan.val < m'.plan
  cohort_lt : v.cohort.val < m'.cohort
  origin : (u.plan = p ∧ builds.elim (m.cohort ≤ v.cohort.val) (v.cohort = ·)) ∨
    (m.plan ≤ u.plan.val ∧ m.cohort ≤ v.cohort.val)

/-- What a part of a split has made of the joins of a region. -/
structure Session.Staged (s : Session) (m m' : Mark) (p : PlanId) (builds : Option CohortId)
    (R : NodeId → Prop) : Prop where
  le : m.Le m'
  timely {j : NodeId} {u v : Fragment} : R j → s.Supplied j u v → Timely m m' p builds u v
  /-- Joins are supplied by plans of one cohort only if a fragment above both has a join that is. -/
  common {j j' : NodeId} {u u' v v' : Fragment} : R j → R j' → s.Supplied j u v →
    s.Supplied j' u' v' → v.cohort = v'.cohort → builds = some v.cohort ∨
      ∃ j₀ u₀ v₀, R j₀ ∧ s.Supplied j₀ u₀ v₀ ∧ v₀.cohort = v.cohort ∧ u₀.plan = u.plan ∧
        u₀.plan = u'.plan ∧ s.Below u₀.root j ∧ s.Below u₀.root j'
  /-- The joins of a plan at and below a fragment with such a join are supplied by one cohort. -/
  shared {j j' : NodeId} {u u' v v' : Fragment} : R j → R j' → s.Supplied j u v →
    s.Supplied j' u' v' → u.plan = u'.plan → s.Below u.root j' → v.cohort = v'.cohort

namespace Timely

variable {m m₁ m₂ : Mark} {p : PlanId} {builds : Option CohortId} {u v : Fragment}

theorem later (h : Timely m m₁ p builds u v) (hm : m₁.Le m₂) : Timely m m₂ p builds u v :=
  { h with
    plan_lt := h.plan_lt.trans_le hm.plan
    cohort_lt := h.cohort_lt.trans_le hm.cohort }

theorem earlier (h : Timely m₁ m₂ p builds u v) (hm : m.Le m₁) : Timely m m₂ p builds u v := by
  refine { h with origin := ?_ }
  rcases h.origin with ⟨hp, hbuilds⟩ | ⟨hplan, hcohort⟩
  · refine .inl ⟨hp, ?_⟩
    cases builds with
    | none => exact hm.cohort.trans hbuilds
    | some c => exact hbuilds
  · exact .inr ⟨hm.plan.trans hplan, hm.cohort.trans hcohort⟩

/-- A join supplied by a plan of a cohort that was allotted before is one of the plan `p`. -/
theorem allotted (h : Timely m m₁ p builds u v) {c : CohortId} (hc : v.cohort = c)
    (hlt : c.val < m.cohort) : u.plan = p ∧ builds = some c := by
  subst hc
  rcases h.origin with ⟨hp, hbuilds⟩ | ⟨_, hcohort⟩
  · cases builds with
    | none => exact absurd (hbuilds : m.cohort ≤ v.cohort.val) (not_le.mpr hlt)
    | some c => exact ⟨hp, congrArg some (hbuilds : v.cohort = c).symm⟩
  · exact absurd hcohort (not_le.mpr hlt)

/-- A join of a plan that was there before is one of the plan `p`. -/
theorem own (h : Timely m m₁ p builds u v) (hlt : u.plan.val < m.plan) :
    u.plan = p ∧ builds.elim (m.cohort ≤ v.cohort.val) (v.cohort = ·) := by
  rcases h.origin with hown | ⟨hplan, _⟩
  · exact hown
  · exact absurd hplan (not_le.mpr hlt)

end Timely

namespace Session.Staged

variable {s s' : Session} {m m₁ m₂ : Mark} {p : PlanId} {builds : Option CohortId}
  {R R' : NodeId → Prop} {x : Fragment}

theorem empty (hR : ∀ j, ¬R j) : s.Staged m m p builds R where
  le := .refl m
  timely hj := absurd hj (hR _)
  common hj := absurd hj (hR _)
  shared hj := absurd hj (hR _)

theorem congr (h : s.Staged m m₁ p builds R) (hplan : s'.plan = s.plan)
    (hs : ∀ {j u v}, R j → (s'.Supplied j u v ↔ s.Supplied j u v)) :
    s'.Staged m m₁ p builds R where
  le := h.le
  timely hj hsupplied := h.timely hj ((hs hj).mp hsupplied)
  common hj hj' hsupplied hsupplied' hcohort := by
    rcases h.common hj hj' ((hs hj).mp hsupplied) ((hs hj').mp hsupplied') hcohort with
      hbuilds | ⟨j₀, u₀, v₀, hj₀, hsupplied₀, hsame⟩
    · exact .inl hbuilds
    · rw [← below_of_plan hplan] at hsame
      exact .inr ⟨j₀, u₀, v₀, hj₀, (hs hj₀).mpr hsupplied₀, hsame⟩
  shared hj hj' hsupplied hsupplied' hp hbelow := by
    rw [below_of_plan hplan] at hbelow
    exact h.shared hj hj' ((hs hj).mp hsupplied) ((hs hj').mp hsupplied') hp hbelow

/-- A region may be replaced by another one with the same joins. -/
theorem region (h : s.Staged m m₁ p builds R) (hsub : ∀ j, R j → R' j)
    (hs : ∀ {j u v}, R' j → s.Supplied j u v → R j) : s.Staged m m₁ p builds R' where
  le := h.le
  timely hj hsupplied := h.timely (hs hj hsupplied) hsupplied
  common hj hj' hsupplied hsupplied' hcohort := by
    rcases h.common (hs hj hsupplied) (hs hj' hsupplied') hsupplied hsupplied' hcohort with
      hbuilds | ⟨j₀, u₀, v₀, hj₀, hsame⟩
    · exact .inl hbuilds
    · exact .inr ⟨j₀, u₀, v₀, hsub j₀ hj₀, hsame⟩
  shared hj hj' hsupplied hsupplied' :=
    h.shared (hs hj hsupplied) (hs hj' hsupplied') hsupplied hsupplied'

/-- Joins of two regions are supplied by plans of one cohort only if that was allotted before. -/
theorem allotted (h : s.Staged m m₁ p builds R) (h' : s.Staged m₁ m₂ p builds R')
    {j j' : NodeId} {u u' v v' : Fragment} (hj : R j) (hj' : R' j') (hs : s.Supplied j u v)
    (hs' : s.Supplied j' u' v') (hcohort : v.cohort = v'.cohort) : builds = some v.cohort := by
  have hlt := (h.timely hj hs).cohort_lt
  exact ((h'.timely hj' hs').allotted hcohort.symm hlt).2

/-- Two joins of one plan in two regions are both joins of the plan `p`. -/
theorem own (h : s.Staged m m₁ p builds R) (h' : s.Staged m₁ m₂ p builds R')
    (hx : Current m x builds) (hp : x.plan = p) {j j' : NodeId} {u u' v v' : Fragment} (hj : R j)
    (hj' : R' j') (hs : s.Supplied j u v) (hs' : s.Supplied j' u' v') (hplan : u.plan = u'.plan)
    {c : CohortId} (hc : builds = some c) : v.cohort = c ∧ v'.cohort = c := by
  have ht := h.timely hj hs
  have hlt : u'.plan.val < m₁.plan := by
    rw [← hplan]
    exact ht.plan.trans ht.plan_lt
  obtain ⟨hp', hbuilds'⟩ := (h'.timely hj' hs').own hlt
  have hlt' : u.plan.val < m.plan := by
    rw [hplan, hp', ← hp]
    exact hx.plan
  obtain ⟨_, hbuilds⟩ := ht.own hlt'
  subst hc
  exact ⟨hbuilds, hbuilds'⟩

/-- What one part of a split does in one region and the next part in another one. Unless a cohort
was allotted before, no fragment may have joins in both. -/
theorem append (h : s.Staged m m₁ p builds R) (h' : s.Staged m₁ m₂ p builds R')
    (hx : Current m x builds) (hp : x.plan = p)
    (hcross : builds = none → ∀ {j j' u u' v v'}, R j → R' j' → s.Supplied j u v →
      s.Supplied j' u' v' → ¬s.Below u.root j' ∧ ¬s.Below u'.root j) :
    s.Staged m m₂ p builds fun j ↦ R j ∨ R' j where
  le := h.le.trans h'.le
  timely hj hs := by
    rcases hj with hj | hj
    · exact (h.timely hj hs).later h'.le
    · exact (h'.timely hj hs).earlier h.le
  common {j j' u u' v v'} hj hj' hs hs' hcohort := by
    rcases hj with hj | hj <;> rcases hj' with hj' | hj'
    · apply (h.common hj hj' hs hs' hcohort).imp_right
      rintro ⟨j₀, u₀, v₀, hj₀, hsame⟩
      exact ⟨j₀, u₀, v₀, .inl hj₀, hsame⟩
    · exact .inl (h.allotted h' hj hj' hs hs' hcohort)
    · rw [hcohort]
      exact .inl (h.allotted h' hj' hj hs' hs hcohort.symm)
    · apply (h'.common hj hj' hs hs' hcohort).imp_right
      rintro ⟨j₀, u₀, v₀, hj₀, hsame⟩
      exact ⟨j₀, u₀, v₀, .inr hj₀, hsame⟩
  shared {j j' u u' v v'} hj hj' hs hs' hplan hbelow := by
    rcases hj with hj | hj <;> rcases hj' with hj' | hj'
    · exact h.shared hj hj' hs hs' hplan hbelow
    · cases hbuilds : builds with
      | none => exact absurd hbelow (hcross hbuilds hj hj' hs hs').1
      | some c =>
        obtain ⟨hv, hv'⟩ := h.own h' hx hp hj hj' hs hs' hplan hbuilds
        exact hv.trans hv'.symm
    · cases hbuilds : builds with
      | none => exact absurd hbelow (hcross hbuilds hj' hj hs' hs).2
      | some c =>
        obtain ⟨hv', hv⟩ := h.own h' hx hp hj' hj hs' hs hplan.symm hbuilds
        exact hv.trans hv'.symm
    · exact h'.shared hj hj' hs hs' hplan hbelow

/-- The join `j` of the fragment `u` has got the plan that begins with `v`, and then that plan has
been split in turn. -/
theorem cons {j : NodeId} {u v : Fragment}
    (h : s.Staged ⟨m.plan + 1, m.cohort⟩ m₁ v.plan none R) (hs : s.Coherent)
    (hsupplied : s.Supplied j u v) (hu : Current m u (some v.cohort))
    (hplan : v.plan.val = m.plan) (hpartitioning : v.partitioning = u.partitioning) :
    s.Staged m m₁ u.plan (some v.cohort) fun i ↦ i = j ∨ R i := by
  obtain ⟨_, hcohort, hnext⟩ := hu.builds rfl
  have hle : m.Le ⟨m.plan + 1, m.cohort⟩ := ⟨Int.le_add_one (Int.le_refl _), Int.le_refl _⟩
  -- The new plan and those below it come after the plan of the join.
  have later {i : NodeId} {w t : Fragment} (hi : R i) (hw : s.Supplied i w t) :
      Timely m m₁ u.plan (some v.cohort) w t ∧ m.plan ≤ w.plan.val ∧ m.cohort ≤ t.cohort.val := by
    have ht := h.timely hi hw
    have hnew : m.plan ≤ w.plan.val ∧ m.cohort ≤ t.cohort.val := by
      rcases ht.origin with ⟨hw, htc⟩ | ⟨hw, htc⟩
      · rw [hw, hplan]
        exact ⟨Int.le_refl _, htc⟩
      · exact ⟨hle.plan.trans hw, htc⟩
    exact ⟨{ ht with origin := .inr hnew }, hnew⟩
  have unique {w t : Fragment} (hw : s.Supplied j w t) : w = u ∧ t = v :=
    hs.supplied_unique hw hsupplied
  constructor
  case le => exact hle.trans h.le
  case timely =>
    rintro i w t (rfl | hi) hw
    · obtain ⟨rfl, rfl⟩ := unique hw
      refine ⟨?_, hcohort, hpartitioning, ?_, hnext.trans_le h.le.cohort, .inl ⟨rfl, rfl⟩⟩
      · rw [hplan]
        exact hu.plan
      · have hlt : m.plan + 1 ≤ m₁.plan := h.le.plan
        omega
    · exact (later hi hw).1
  case common =>
    rintro i i' w w' t t' hi hi' hw hw' hsame
    rcases hi with rfl | hi
    · obtain ⟨rfl, rfl⟩ := unique hw
      exact .inl rfl
    · rcases hi' with rfl | hi'
      · obtain ⟨rfl, rfl⟩ := unique hw'
        exact .inl (congrArg some hsame.symm)
      · rcases h.common hi hi' hw hw' hsame with hnone | ⟨i₀, w₀, t₀, hi₀, hrest⟩
        · cases hnone
        · exact .inr ⟨i₀, w₀, t₀, .inr hi₀, hrest⟩
  case shared =>
    rintro i i' w w' t t' hi hi' hw hw' hsame hbelow
    rcases hi with rfl | hi <;> rcases hi' with rfl | hi'
    · rw [(unique hw).2, (unique hw').2]
    · obtain ⟨rfl, rfl⟩ := unique hw
      have hnew := (later hi' hw').2.1
      have hold := hu.plan
      rw [hsame] at hold
      omega
    · obtain ⟨rfl, rfl⟩ := unique hw'
      have hnew := (later hi hw).2.1
      have hold := hu.plan
      rw [← hsame] at hold
      omega
    · exact h.shared hi hi' hw hw' hsame hbelow

/-- The cohort for the joins at and below a fragment has been allotted because the fragment has a
join. -/
theorem allot {c : CohortId} (h : s.Staged ⟨m.plan, m.cohort + 1⟩ m₁ p (some c) R)
    (hc : c.val = m.cohort) {j₀ : NodeId} {u₀ v₀ : Fragment} (hj₀ : R j₀)
    (hs₀ : s.Supplied j₀ u₀ v₀) (hp : u₀.plan = p) (hlt : p.val < m.plan)
    (hbelow : ∀ j, R j → s.Below u₀.root j) : s.Staged m m₁ p none R where
  le := ⟨h.le.plan, Int.le_of_lt h.le.cohort⟩
  timely {j u v} hj hs := by
    have ht := h.timely hj hs
    refine { ht with origin := ?_ }
    rcases ht.origin with ⟨hu, hv⟩ | ⟨hu, hv⟩
    · refine .inl ⟨hu, ?_⟩
      rw [Option.elim_none, (hv : v.cohort = c), hc]
    · exact .inr ⟨hu, Int.le_of_lt hv⟩
  common {j j' u u' v v'} hj hj' hs hs' hcohort := by
    right
    rcases h.common hj hj' hs hs' hcohort with hbuilds | hcommon
    · have hnext : c.val < m.cohort + 1 := by omega
      have hv : v.cohort = c := (Option.some.inj hbuilds).symm
      obtain ⟨hu, _⟩ := (h.timely hj hs).allotted hv hnext
      obtain ⟨hu', _⟩ := (h.timely hj' hs').allotted (hcohort.symm.trans hv) hnext
      obtain ⟨_, hv₀⟩ := (h.timely hj₀ hs₀).own (hp ▸ hlt)
      exact ⟨j₀, u₀, v₀, hj₀, hs₀, (hv₀ : v₀.cohort = c).trans hv.symm, hp.trans hu.symm,
        hp.trans hu'.symm, hbelow j hj, hbelow j' hj'⟩
    · exact hcommon
  shared := h.shared

end Session.Staged

end QueryPlanning
