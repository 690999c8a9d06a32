import QueryPlanning.Proofs.Plan.Extraction

/-!
# Changes within a region

A step of a split changes nodes below some node and the fragments that begin there. Of all other
fragments it changes at most one, and of this one only the list of children. Steps in regions that
have nothing in common therefore do not disturb each other: what one has settled stays settled.
-/

namespace QueryPlanning.Session

variable {s s' s'' : Session} {region region' : NodeId → Prop} {o o' : FragmentId}

/-- Outside a region, nodes and fragments are as before, except that the fragment `o` can have
other children. -/
structure Confined (s s' : Session) (region : NodeId → Prop) (o : FragmentId) : Prop where
  plan : s'.plan = s.plan
  node {i : NodeId} : ¬region i → s'.node? i = s.node? i
  fragment {f : FragmentId} {x : Fragment} : s.fragment? f = some x → f = o ∨ ¬region x.root →
    ∃ children, s'.fragment? f = some { x with children } ∧ (f ≠ o → children = x.children)
  root {f : FragmentId} {x : Fragment} : s.fragment? f = some x →
    ∃ x', s'.fragment? f = some x' ∧ x'.root = x.root
  destination {f : FragmentId} {x x' : Fragment} : s.fragment? f = some x →
    s'.fragment? f = some x' → x'.destination = x.destination
  new {f : FragmentId} {x' : Fragment} : s'.fragment? f = some x' →
    (∃ x, s.fragment? f = some x) ∨ (region x'.root ∧ x'.destination = none)

namespace Confined

theorem refl (s : Session) (region : NodeId → Prop) (o : FragmentId) : s.Confined s region o where
  plan := rfl
  node _ := rfl
  fragment hx _ := ⟨_, hx, fun _ ↦ rfl⟩
  root hx := ⟨_, hx, rfl⟩
  destination hx hx' := by
    obtain rfl := Option.some.inj (hx.symm.trans hx')
    rfl
  new hx' := .inl ⟨_, hx'⟩

theorem trans (h : s.Confined s' region o) (h' : s'.Confined s'' region o) :
    s.Confined s'' region o where
  plan := h'.plan.trans h.plan
  node hi := (h'.node hi).trans (h.node hi)
  fragment {f x} hx hf := by
    obtain ⟨children, hx', hsame⟩ := h.fragment hx hf
    obtain ⟨children', hx'', hsame'⟩ := h'.fragment hx' hf
    exact ⟨children', hx'', fun hne ↦ (hsame' hne).trans (hsame hne)⟩
  root hx := by
    obtain ⟨x', hx', hroot⟩ := h.root hx
    obtain ⟨x'', hx'', hroot'⟩ := h'.root hx'
    exact ⟨x'', hx'', hroot'.trans hroot⟩
  destination hx hx'' := by
    obtain ⟨x', hx', _⟩ := h.root hx
    exact (h'.destination hx' hx'').trans (h.destination hx hx')
  new {f x''} hx'' := by
    rcases h'.new hx'' with ⟨x', hx'⟩ | hin
    · rcases h.new hx' with hold | ⟨hin, hdest⟩
      · exact .inl hold
      · obtain ⟨z, hz, hroot⟩ := h'.root hx'
        obtain rfl := Option.some.inj (hx''.symm.trans hz)
        exact .inr ⟨hroot ▸ hin, (h'.destination hx' hx'').trans hdest⟩
    · exact .inr hin

theorem mono (h : s.Confined s' region o) (hregion : ∀ i, region i → region' i) :
    s.Confined s' region' o where
  plan := h.plan
  node hi := h.node fun hin ↦ hi (hregion _ hin)
  fragment hx hf := h.fragment hx (hf.imp_right fun hout hin ↦ hout (hregion _ hin))
  root := h.root
  destination := h.destination
  new hx' := (h.new hx').imp_right fun hin ↦ ⟨hregion _ hin.1, hin.2⟩

/-- The fragment with other children may lie in the region, if another one lies outside. -/
theorem change (h : s.Confined s' region o)
    (ho : ∀ x, s.fragment? o = some x → o ≠ o' ∧ region x.root)
    (ho' : ∀ x, s.fragment? o' = some x → ¬region x.root) : s.Confined s' region o' where
  plan := h.plan
  node := h.node
  fragment {f x} hx hf := by
    have hout : ¬region x.root := by
      rcases hf with rfl | hout
      · exact ho' x hx
      · exact hout
    obtain ⟨children, hx', hsame⟩ := h.fragment hx (.inr hout)
    refine ⟨children, hx', fun _ ↦ hsame ?_⟩
    rintro rfl
    exact hout (ho x hx).2
  root := h.root
  destination := h.destination
  new := h.new

end Confined

/-- All is done below a node: the fragments that begin properly below it have the plan and the
cohort of their parents, and the joins have tables unless they are skipped. -/
structure SettledBelow (s : Session) (b : NodeId) : Prop where
  inherits {f g : FragmentId} {x y : Fragment} : s.fragment? f = some x → s.Below b x.root →
    x.root ≠ b → x.parent = some g → s.fragment? g = some y →
      x.plan = y.plan ∧ x.cohort = y.cohort
  tabled {j : NodeId} {n : Node} {join : Join} : s.Below b j → s.node? j = some n →
    n.kind = .join join → (join.table.isValid = true ↔ ¬s.Skipped j)

namespace Coherent

/-- A parent begins below every node where a fragment begins that is above its child. -/
theorem parent_below (h : s.Coherent) {f g k : FragmentId} {x z : Fragment}
    (hx : s.fragment? f = some x) (hz : s.fragment? k = some z) (hbelow : s.Below z.root x.root)
    (hne : x.root ≠ z.root) (hparent : x.parent = some g) :
    ∃ y, s.fragment? g = some y ∧ s.Below z.root y.root := by
  obtain ⟨e, n, hn, _, rfl, hchild⟩ := h.exists_exchange hx hparent
  obtain ⟨y, hy⟩ := h.linked.parent ((parent?_eq hx).trans hparent)
  exact ⟨y, hy, h.root_below hz hn hy (h.tree.below_parent hbelow hne.symm hchild)⟩

end Coherent

/-- What is settled stays settled under changes elsewhere. -/
theorem SettledBelow.confined {k : FragmentId} {z : Fragment} (hs : s.SettledBelow z.root)
    (h : s.Coherent) (hz : s.fragment? k = some z) (hc : s.Confined s' region o)
    (hout : ∀ i, s.Below z.root i → ¬region i) : s'.SettledBelow z.root where
  inherits {f g x' y'} hx' hbelow hne hparent hy' := by
    rw [below_of_plan hc.plan] at hbelow
    rcases hc.new hx' with ⟨x, hx⟩ | hin
    · obtain ⟨w, hw, hroot⟩ := hc.root hx
      obtain rfl := Option.some.inj (hx'.symm.trans hw)
      rw [hroot] at hbelow hne
      obtain ⟨children, hx'', _⟩ := hc.fragment hx (.inr (hout _ hbelow))
      obtain rfl := Option.some.inj (hx'.symm.trans hx'')
      obtain ⟨y, hy, hzy⟩ := h.parent_below hx hz hbelow hne hparent
      obtain ⟨children', hy'', _⟩ := hc.fragment hy (.inr (hout _ hzy))
      obtain rfl := Option.some.inj (hy'.symm.trans hy'')
      have hsame := hs.inherits hx hbelow hne hparent hy
      exact hsame
    · exact absurd hin.1 (hout _ hbelow)
  tabled {j n join} hj hn hkind := by
    rw [below_of_plan hc.plan] at hj
    rw [hc.node (hout j hj)] at hn
    rw [skipped_of_plan hc.plan]
    exact hs.tabled hj hn hkind

/-- The build side of a join begins at the node. -/
abbrev Build (s : Session) : NodeId → NodeId → Prop := s.Step fun n ↦ n.children[1]?.toList

theorem build_of_plan (h : s'.plan = s.plan) : s'.Build = s.Build :=
  step_of_plan (fun _ ↦ rfl) h

theorem build_iff {j b : NodeId} {n : Node} (hn : s.node? j = some n) :
    s.Build j b ↔ n.children[1]? = some b := by
  constructor
  · rintro ⟨m, hm, hb⟩
    obtain rfl := Option.some.inj (hn.symm.trans hm)
    exact Option.mem_toList.mp hb
  · intro hb
    exact ⟨n, hn, Option.mem_toList.mpr hb⟩

theorem build_unique {j b b' : NodeId} (h : s.Build j b) (h' : s.Build j b') : b = b' := by
  obtain ⟨n, hn, _⟩ := id h
  exact Option.some.inj (((build_iff hn).mp h).symm.trans ((build_iff hn).mp h'))

theorem child_of_build {j b : NodeId} (h : s.Build j b) : s.Child j b := by
  obtain ⟨n, hn, hb⟩ := h
  exact ⟨n, hn, List.mem_of_getElem? (Option.mem_toList.mp hb)⟩

/-- What the extraction of a join changes: the join and what is below its build side. -/
def JoinRegion (s : Session) (j i : NodeId) : Prop := i = j ∨ ∃ b, s.Build j b ∧ s.Below b i

theorem joinRegion_of_plan (h : s'.plan = s.plan) : s'.JoinRegion = s.JoinRegion := by
  unfold JoinRegion
  rw [build_of_plan h, below_of_plan h]

/-- Extracting a build side changes nothing outside the region of the join. -/
theorem Extracted.confined {j : NodeId} {n : Node} {join : Join} {table : JoinTableId}
    {x y : Fragment} {inputs : List FragmentId} (h : s.Coherent)
    (he : s.Extracted s' j n join table x inputs) (hy : s.fragment? n.fragment = some y) :
    s.Confined s' (s.JoinRegion j) n.fragment := by
  have hbuild : s.Build j x.root := (build_iff he.node).mpr he.build
  have hbelow {i : NodeId} (hi : s.Below x.root i) : s.JoinRegion j i := .inr ⟨_, hbuild, hi⟩
  have input_below {f : FragmentId} {z : Fragment} (hf : f ∈ inputs)
      (hz : s.fragment? f = some z) : s.Below x.root z.root := by
    obtain ⟨e, m, hin, hm, hkind⟩ := he.feeds hf
    obtain ⟨_, _, _, hchild, _⟩ := h.fed hz (h.destination_eq hm hkind hz)
    exact (hin.mono Node.inner_subset).tail hchild
  refine ⟨he.plan, ?_, ?_, ?_, ?_, ?_⟩
  · intro i hi
    apply he.kept (fun hij ↦ hi (.inl hij))
    intro hin
    exact hi (hbelow (hin.mono Node.inner_subset))
  · intro f z hz hf
    have hno : f ∉ inputs := by
      intro hmem
      rcases hf with rfl | hout
      · obtain rfl := Option.some.inj (hy.symm.trans hz)
        have hj := (input_below hmem hy).trans (h.below_root he.node hy)
        exact h.tree.not_below_child he.child hj
      · exact hout (hbelow (input_below hmem hz))
    refine ⟨z.children.filter (!inputs.contains ·), ?_, fun hne ↦ ?_⟩
    · rw [he.parted.fragment hz, he.parted.rehomed_old hz]
      simp [hno]
    · rw [List.filter_eq_self]
      intro c hc
      have hparent := (h.linked.mem_children hz).mp hc
      have hnot : c ∉ inputs := by
        intro hmem
        exact hne (Option.some.inj (hparent.symm.trans (he.home hmem)))
      simp [hnot]
  · intro f z hz
    exact ⟨_, he.parted.fragment hz, Fragment.rehomed_root⟩
  · intro f z z' hz hz'
    obtain rfl := Option.some.inj (hz'.symm.trans (he.parted.fragment hz))
    exact Fragment.rehomed_destination
  · intro f z' hz'
    rcases he.parted.fragment_cases hz' with ⟨_, rfl⟩ | ⟨z, hz, _, rfl⟩
    · rw [Fragment.rehomed_root, Fragment.rehomed_destination]
      exact .inr ⟨hbelow .refl, he.destination⟩
    · exact .inl ⟨z, hz⟩

end QueryPlanning.Session
