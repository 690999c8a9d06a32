import QueryPlanning.Proofs.Plan.Assembly

/-!
# Links between fragments

Parents and lists of children are changed in three places: a new fragment adopts the orphans that
feed it, a fragment is moved from one parent to another, and an exchange is added without a change
of either. Whatever is called and in whichever order, the two agree and no fragment lies below
itself. To adopt a fragment and to move it come to the same: the fragment is taken out of all lists
of children and hung below another one. This closes no circle unless the other one lies below the
fragment, and a new fragment lies below none.
-/

namespace QueryPlanning

/-- A fragment after `c` has been taken out of all lists of children and hung below `target`. -/
def Fragment.hung (target c : FragmentId) (x : Fragment) : Fragment :=
  { x with
    parent := if x.id = c then some target else x.parent
    children := x.children.filter (· ≠ c) ++ if x.id = target then [c] else [] }

namespace Fragment

variable {target c : FragmentId} {x : Fragment}

@[simp]
theorem hung_root : (x.hung target c).root = x.root := rfl

/-- Parents and children are set one after the other. -/
theorem hung_eq (x : Fragment) : x.hung target c =
    if x.id = c then { if x.id = target then (x.removeChild c).addChild c else x.removeChild c with
      parent := some target }
    else if x.id = target then (x.removeChild c).addChild c else x.removeChild c := by
  unfold hung
  split <;> split <;> simp [removeChild, addChild]

theorem mem_children_hung {d : FragmentId} :
    d ∈ (x.hung target c).children ↔ (d ∈ x.children ∧ d ≠ c) ∨ (x.id = target ∧ d = c) := by
  change d ∈ x.children.filter (· ≠ c) ++ (if x.id = target then [c] else []) ↔ _
  rw [List.mem_append, List.mem_filter, decide_eq_true_iff]
  by_cases ht : x.id = target <;> simp [ht]

theorem nodup_children_hung (h : x.children.Nodup) : (x.hung target c).children.Nodup := by
  change (x.children.filter (· ≠ c) ++ (if x.id = target then [c] else [])).Nodup
  have hfiltered : (x.children.filter (· ≠ c)).Nodup := h.filter _
  split
  · refine List.nodup_append.mpr ⟨hfiltered, List.nodup_singleton c, ?_⟩
    intro d hd e he hde
    obtain rfl := List.mem_singleton.mp he
    simp [hde] at hd
  · rw [List.append_nil]
    exact hfiltered

end Fragment

namespace Session

variable {s s' : Session} {target c : FragmentId}

/-- The fragment `c` hangs below `target` now, and nothing else has changed. -/
structure Hung (s s' : Session) (target c : FragmentId) : Prop where
  nodes : s'.nodes = s.nodes
  ordered : s.Ordered → s'.Ordered
  fragment (f : FragmentId) : s'.fragment? f = (s.fragment? f).map (Fragment.hung target c)

namespace Hung

theorem old (h : s.Hung s' target c) {f : FragmentId} {x : Fragment}
    (hx : s.fragment? f = some x) : s'.fragment? f = some (x.hung target c) := by
  rw [h.fragment, hx]
  rfl

theorem fragment_cases (h : s.Hung s' target c) {f : FragmentId} {x' : Fragment}
    (hx' : s'.fragment? f = some x') :
    ∃ x, s.fragment? f = some x ∧ x.id = f ∧ x' = x.hung target c := by
  rw [h.fragment, Option.map_eq_some_iff] at hx'
  obtain ⟨x, hx, rfl⟩ := hx'
  exact ⟨x, hx, id_of_fragment? hx, rfl⟩

theorem parent? (h : s.Hung s' target c) {z : Fragment} (hz : s.fragment? c = some z)
    (d : FragmentId) : s'.parent? d = if d = c then some target else s.parent? d := by
  cases hx : s.fragment? d with
  | none =>
    have hne : d ≠ c := by
      rintro rfl
      cases hx.symm.trans hz
    rw [if_neg hne, Session.parent?, Session.parent?, h.fragment, hx]
    rfl
  | some x =>
    rw [parent?_eq (h.old hx), parent?_eq hx, Fragment.hung, id_of_fragment? hx]

theorem linked (h : s.Hung s' target c) (hs : s.Linked) {y z : Fragment}
    (hy : s.fragment? target = some y) (hz : s.fragment? c = some z) : s'.Linked where
  mem_children {f d x'} hx' := by
    obtain ⟨x, hx, rfl, rfl⟩ := h.fragment_cases hx'
    rw [h.parent? hz, Fragment.mem_children_hung, hs.mem_children hx]
    by_cases hd : d = c
    · simp [hd, eq_comm]
    · simp [hd]
  nodup {f x'} hx' := by
    obtain ⟨x, hx, rfl, rfl⟩ := h.fragment_cases hx'
    exact Fragment.nodup_children_hung (hs.nodup hx)
  parent {f d} hd := by
    rw [h.parent? hz] at hd
    split at hd
    · obtain rfl := Option.some.inj hd
      exact ⟨_, h.old hy⟩
    · obtain ⟨x, hx⟩ := hs.parent hd
      exact ⟨_, h.old hx⟩

/-- A path runs along old links, or down to `target` and on below `c`. -/
theorem path_cases (h : s.Hung s' target c) {z : Fragment} (hz : s.fragment? c = some z)
    {f d : FragmentId} (hfd : Relation.TransGen (fun f d ↦ s'.parent? d = some f) f d) :
    Relation.TransGen (fun f d ↦ s.parent? d = some f) f d ∨
      (s.InTree f target ∧ s.InTree c d) := by
  induction hfd with
  | @single d hd =>
    rw [h.parent? hz] at hd
    split at hd
    · rename_i hdc
      obtain rfl := Option.some.inj hd
      exact .inr ⟨.refl, hdc ▸ .refl⟩
    · exact .inl (.single hd)
  | @tail e d _ hd ih =>
    rw [h.parent? hz] at hd
    split at hd
    · rename_i hdc
      obtain rfl := Option.some.inj hd
      exact .inr ⟨ih.elim (·.to_reflTransGen) And.left, hdc ▸ .refl⟩
    · exact ih.imp (·.tail hd) fun hpath ↦ ⟨hpath.1, hpath.2.tail hd⟩

theorem acyclic (h : s.Hung s' target c) (hs : s.Acyclic) {z : Fragment}
    (hz : s.fragment? c = some z) (hout : ¬s.InTree c target) : s'.Acyclic := by
  intro f hf
  rcases h.path_cases hz hf with hold | ⟨habove, hbelow⟩
  · exact hs f hold
  · exact hout (hbelow.trans habove)

end Hung

/-- Above a fragment without a parent there is no other one. -/
theorem not_inTree_of_orphan (h : s.parent? target = none) (hne : c ≠ target) :
    ¬s.InTree c target := by
  intro hin
  rcases Relation.ReflTransGen.cases_tail hin with heq | ⟨p, _, hp⟩
  · exact hne heq.symm
  · cases h.symm.trans hp

/-- A fragment is in the list of its parent only. -/
theorem Linked.removeChild_eq (h : s.Linked) {f : FragmentId} {x : Fragment}
    (hx : s.fragment? f = some x) (hc : s.parent? c ≠ some f) : x.removeChild c = x := by
  have hchildren : x.children.filter (· ≠ c) = x.children := by
    rw [List.filter_eq_self]
    intro d hd
    have hne : d ≠ c := by
      rintro rfl
      exact hc ((h.mem_children hx).mp hd)
    simpa using hne
  rw [Fragment.removeChild, hchildren]

theorem Linked.modifyFragment_removeChild (h : s.Linked) (ho : s.Ordered) {f : FragmentId}
    (hc : s.parent? c ≠ some f) : s.modifyFragment f (·.removeChild c) = s := by
  have hsame : Numbered.modify Fragment.id f (·.removeChild c) s.fragments = s.fragments := by
    refine (List.map_congr_left fun x hx ↦ ?_).trans (List.map_id _)
    split
    · rename_i hid
      exact h.removeChild_eq (hid ▸ ho.fragments.get?_of_mem hx) hc
    · rfl
  rw [Session.modifyFragment, hsame]

/-- Only fragments without a parent are adopted. -/
theorem Linked.exists_adopt (h : s.Linked) (target : FragmentId) {z : Fragment}
    (hz : s.fragment? c = some z) :
    ∃ s', s.adopt target c = .ok s' ∧ (s' = s ∨ (z.parent = none ∧ s.Hung s' target c)) := by
  rw [adopt, fragment_eq_ok.mpr hz, Outcome.ok_bind]
  cases hparent : z.parent with
  | some p => exact ⟨s, rfl, .inl rfl⟩
  | none =>
    let setParent := fun y : Fragment ↦ { y with parent := some target }
    refine ⟨_, rfl, .inr ⟨rfl, rfl, fun ho ↦ ?_, fun f ↦ ?_⟩⟩
    · exact (ho.modifyFragment (g := setParent) (fun _ ↦ rfl) c).modifyFragment
        (g := (·.addChild c)) (fun _ ↦ rfl) target
    · rw [fragment?_modifyFragment_eq_map (g := (·.addChild c)) (fun _ ↦ rfl),
        fragment?_modifyFragment_eq_map (g := setParent) (fun _ ↦ rfl)]
      cases hx : s.fragment? f with
      | none => rfl
      | some x =>
        have horphan : s.parent? c ≠ some f := by
          rw [parent?_eq hz, hparent]
          exact Option.some_ne_none f ∘ Eq.symm
        rw [Option.map_some, Option.map_some, Option.map_some, Fragment.hung_eq,
          h.removeChild_eq hx horphan]
        by_cases hc : x.id = c
        · rw [if_pos hc, if_pos hc]
          by_cases ht : x.id = target <;> simp [setParent, ht, Fragment.addChild]
        · rw [if_neg hc, if_neg hc]

/-- A fragment is moved exactly if it is a child of the source. -/
theorem Linked.moveChild_cases (h : s.Linked) {source : FragmentId} {x y z : Fragment}
    (hsource : s.fragment? source = some x) (htarget : s.fragment? target = some y)
    (hz : s.fragment? c = some z) :
    (s.parent? c = some source ∧ ∃ s', s.moveChild c source target = .ok s' ∧
        s.Hung s' target c) ∨
      (s.parent? c ≠ some source ∧ s.moveChild c source target = .error (.notChild c source)) := by
  have hmem := h.mem_children hsource (c := c)
  rw [moveChild, fragment_eq_ok.mpr hsource, fragment_eq_ok.mpr htarget, fragment_eq_ok.mpr hz,
    Outcome.ok_bind]
  by_cases hparent : s.parent? c = some source
  · rw [List.contains_iff_mem.mpr (hmem.mpr hparent)]
    let setParent := fun y : Fragment ↦ { y with parent := some target }
    refine .inl ⟨hparent, _, rfl, rfl, fun ho ↦ ?_, fun f ↦ ?_⟩
    · exact ((ho.modifyFragment (g := (·.removeChild c)) (fun _ ↦ rfl) source).modifyFragment
        (g := (·.addChild c)) (fun _ ↦ rfl) target).modifyFragment (g := setParent)
        (fun _ ↦ rfl) c
    · rw [fragment?_modifyFragment_eq_map (g := setParent) (fun _ ↦ rfl),
        fragment?_modifyFragment_eq_map (g := (·.addChild c)) (fun _ ↦ rfl),
        fragment?_modifyFragment_eq_map (g := (·.removeChild c)) (fun _ ↦ rfl)]
      cases hx : s.fragment? f with
      | none => rfl
      | some x =>
        have hremoved : (if x.id = source then x.removeChild c else x) = x.removeChild c := by
          split
          · rfl
          · rename_i hne
            rw [id_of_fragment? hx] at hne
            exact (h.removeChild_eq hx (by simpa [hparent] using Ne.symm hne)).symm
        rw [Option.map_some, Option.map_some, Option.map_some, Option.map_some, hremoved,
          Fragment.hung_eq]
        by_cases ht : x.id = target <;>
          simp [setParent, ht, Fragment.addChild, Fragment.removeChild]
  · have hout : x.children.contains c = false := by
      rw [← Bool.not_eq_true, List.contains_iff_mem, hmem]
      exact hparent
    rw [hout]
    exact .inr ⟨hparent, rfl⟩

/-! ## Wired sessions -/

/-- What every call keeps. Nodes are above nodes that are there already, fragments begin at nodes
and exchanges receive rows from fragments that are there, too, and parents and children of the
fragments make trees. -/
structure Wired (s : Session) : Prop where
  ordered : s.Ordered
  descending : s.Descending
  linked : s.Linked
  acyclic : s.Acyclic
  root {f : FragmentId} {x : Fragment} : s.fragment? f = some x → ∃ n, s.node? x.root = some n
  input {e : NodeId} {n : Node} {f : FragmentId} :
    s.node? e = some n → n.kind = .exchange f → ∃ x, s.fragment? f = some x

theorem Acyclic.congr (h : s.Acyclic) (hparents : ∀ f, s'.parent? f = s.parent? f) :
    s'.Acyclic := by
  unfold Acyclic
  simp only [hparents]
  exact h

theorem Descending.congr (h : s.Descending)
    (hchildren : ∀ i, (s'.node? i).map Node.children = (s.node? i).map Node.children) :
    s'.Descending := by
  have hchild : s'.Child = s.Child := step_congr hchildren
  refine ⟨fun hpc ↦ h.lt (hchild ▸ hpc), fun {p c} hpc ↦ ?_⟩
  obtain ⟨n, hn⟩ := h.child (hchild ▸ hpc)
  obtain ⟨n', hn', _⟩ := exists_of_map_eq (hchildren c) hn
  exact ⟨n', hn'⟩

namespace Wired

theorem empty (hnodes : s.nodes = []) (hfragments : s.fragments = []) : s.Wired := by
  have hs : s.Coherent := .empty hnodes hfragments
  exact ⟨hs.ordered, hs.tree.descending, hs.linked, hs.acyclic,
    fun hx ↦ absurd hx (fragment?_ne_some hfragments _),
    fun hn ↦ absurd hn (node?_ne_some hnodes _)⟩

theorem add (h : s.Wired) {node : NodeId → Node} (hid : (node s.nextNode).id = s.nextNode)
    (hchildren : ∀ c ∈ (node s.nextNode).children, ∃ n, s.node? c = some n)
    (hinput : ∀ f, (node s.nextNode).kind = .exchange f → ∃ x, s.fragment? f = some x) :
    (s.add node).2.Wired := by
  have hnode (i : NodeId) := h.ordered.node?_add hid i
  have hold {i : NodeId} {n : Node} (hn : s.node? i = some n) :
      (s.add node).2.node? i = some n := by
    rw [hnode, if_neg (h.ordered.nextNode_ne hn), hn]
  have hcases {i : NodeId} {n : Node} (hn : (s.add node).2.node? i = some n) :
      (i = s.nextNode ∧ n = node s.nextNode) ∨ s.node? i = some n := by
    rw [hnode] at hn
    split at hn
    · rename_i hi
      exact .inl ⟨hi, (Option.some.inj hn).symm⟩
    · exact .inr hn
  have hkin : s.SameKin (s.add node).2 := .of_fragments fun _ ↦ rfl
  constructor
  case ordered => exact h.ordered.add hid
  case descending =>
    constructor
    · rintro p c ⟨m, hm, hc⟩
      rcases hcases hm with ⟨rfl, rfl⟩ | hm
      · obtain ⟨n, hn⟩ := hchildren c hc
        exact h.ordered.lt_length hn
      · exact h.descending.lt ⟨m, hm, hc⟩
    · rintro p c ⟨m, hm, hc⟩
      rcases hcases hm with ⟨rfl, rfl⟩ | hm
      · exact (hchildren c hc).imp fun _ ↦ hold
      · exact (h.descending.child ⟨m, hm, hc⟩).imp fun _ ↦ hold
  case linked => exact hkin.linked h.linked
  case acyclic => exact h.acyclic.congr hkin.parent?
  case root => exact fun hx ↦ (h.root hx).imp fun _ ↦ hold
  case input =>
    intro e n f hn hkind
    rcases hcases hn with ⟨_, rfl⟩ | hn
    · exact hinput f hkind
    · exact h.input hn hkind

/-- Sinks and destinations are of no matter. -/
theorem modifyFragment (h : s.Wired) {g : Fragment → Fragment} (hid : ∀ x, (g x).id = x.id)
    (hkin : ∀ x, (g x).kin = x.kin) (hroot : ∀ x, (g x).root = x.root) (f : FragmentId) :
    (s.modifyFragment f g).Wired := by
  have hsame := SameKin.modifyFragment (s := s) hid hkin f
  refine ⟨h.ordered.modifyFragment hid f, ⟨h.descending.lt, h.descending.child⟩,
    hsame.linked h.linked, h.acyclic.congr hsame.parent?, fun {k x'} hx' ↦ ?_,
    fun {e n k} hn hkind ↦ ?_⟩
  · rw [fragment?_modifyFragment_eq_map hid, Option.map_eq_some_iff] at hx'
    obtain ⟨x, hx, rfl⟩ := hx'
    have hroot' : (if x.id = f then g x else x).root = x.root := by
      split
      · exact hroot x
      · rfl
    rw [hroot']
    exact h.root hx
  · obtain ⟨x, hx⟩ := h.input hn hkind
    rw [fragment?_modifyFragment_eq_map hid, hx]
    exact ⟨_, rfl⟩

theorem setSink (h : s.Wired) (f : FragmentId) (kind : SinkKind) : (s.setSink f kind).Wired :=
  h.modifyFragment (g := ({ · with sink := some { fragment := f, kind } })) (fun _ ↦ rfl)
    (fun _ ↦ rfl) (fun _ ↦ rfl) f

/-- A fragment that is hung below another one closes no circle unless that one is below it. -/
theorem hung (h : s.Wired) (hh : s.Hung s' target c) {y z : Fragment}
    (hy : s.fragment? target = some y) (hz : s.fragment? c = some z)
    (hout : ¬s.InTree c target) : s'.Wired := by
  have hnode (i : NodeId) : s'.node? i = s.node? i := by
    rw [node?, hh.nodes]
    rfl
  constructor
  case ordered => exact hh.ordered h.ordered
  case descending => exact h.descending.congr fun i ↦ congrArg _ (hnode i)
  case linked => exact hh.linked h.linked hy hz
  case acyclic => exact hh.acyclic h.acyclic hz hout
  case root =>
    intro f x' hx'
    obtain ⟨x, hx, _, rfl⟩ := hh.fragment_cases hx'
    rw [Fragment.hung_root, hnode]
    exact h.root hx
  case input =>
    intro e n f hn hkind
    rw [hnode] at hn
    obtain ⟨x, hx⟩ := h.input hn hkind
    exact ⟨_, hh.old hx⟩

/-- A new fragment has no parent and no children at first. -/
theorem recut (h : s.Wired) {x : Fragment} (hr : s.Recut s' x []) : s'.Wired := by
  have hold {f : FragmentId} {y : Fragment} (hy : s.fragment? f = some y) :
      s'.fragment? f = some y := by
    rw [hr.parted.fragment hy, Fragment.rehomed_nil]
  have hcases {f : FragmentId} {y : Fragment} (hy : s'.fragment? f = some y) :
      (f = x.id ∧ y = x) ∨ s.fragment? f = some y := by
    rcases hr.parted.fragment_cases hy with ⟨hf, rfl⟩ | ⟨y, hy, _, rfl⟩
    · exact .inl ⟨hf, Fragment.rehomed_nil⟩
    · exact .inr (by rwa [Fragment.rehomed_nil])
  have hparent (c : FragmentId) : s'.parent? c = s.parent? c :=
    hr.parent?_of_not_mem List.not_mem_nil
  constructor
  case ordered => exact hr.ordered
  case descending => exact h.descending.congr (next_of_plan Node.plain_children hr.plan)
  case linked =>
    constructor
    · intro f c y hy
      rw [hparent]
      rcases hcases hy with ⟨rfl, rfl⟩ | hy
      · rw [hr.children]
        refine iff_of_false List.not_mem_nil fun hc ↦ ?_
        obtain ⟨z, hz⟩ := h.linked.parent hc
        exact hr.parted.id_ne hz rfl
      · exact h.linked.mem_children hy
    · intro f y hy
      rcases hcases hy with ⟨_, rfl⟩ | hy
      · rw [hr.children]
        exact List.nodup_nil
      · exact h.linked.nodup hy
    · intro f c hc
      exact (h.linked.parent ((hparent c).symm.trans hc)).imp fun _ ↦ hold
  case acyclic => exact h.acyclic.congr hparent
  case root =>
    intro f y hy
    have hroot : ∃ n, s.node? y.root = some n := by
      rcases hcases hy with ⟨_, rfl⟩ | hy
      · exact hr.top
      · exact h.root hy
    obtain ⟨n, hn⟩ := hroot
    obtain ⟨n', hn', _⟩ := exists_node?_of_plan hr.plan hn
    exact ⟨n', hn'⟩
  case input =>
    intro e n' f hn' hkind
    obtain ⟨n, hn, ⟨_, rfl⟩ | ⟨_, rfl⟩⟩ := hr.node_cases hn'
    · exact (h.input (n := n) hn hkind).imp fun _ ↦ hold
    · exact (h.input hn hkind).imp fun _ ↦ hold

/-- A fragment without a parent lies in no other tree, so whatever it adopts was not above it. -/
theorem exists_adoptAll (h : s.Wired) {x : Fragment} (hx : s.fragment? target = some x)
    (hparent : s.parent? target = none) {cs : List FragmentId}
    (hcs : ∀ c ∈ cs, c ≠ target ∧ ∃ z, s.fragment? c = some z) :
    ∃ s', cs.foldlM (adopt target) s = .ok s' ∧ s'.Wired := by
  induction cs generalizing s x with
  | nil => exact ⟨s, rfl, h⟩
  | cons c cs ih =>
    obtain ⟨⟨hne, z, hz⟩, hcs⟩ := List.forall_mem_cons.mp hcs
    obtain ⟨s₁, hs₁, rfl | ⟨_, hh⟩⟩ := h.linked.exists_adopt target hz
    · obtain ⟨s', hfold, hs'⟩ := ih h hx hparent hcs
      exact ⟨s', Outcome.foldlM_cons_eq_ok.mpr ⟨_, hs₁, hfold⟩, hs'⟩
    · have hout : ¬s.InTree c target := not_inTree_of_orphan hparent hne
      have hparent₁ : s₁.parent? target = none := by
        rw [hh.parent? hz, if_neg hne.symm, hparent]
      obtain ⟨s', hfold, hs'⟩ := ih (h.hung hh hx hz hout) (hh.old hx) hparent₁
        fun d hd ↦ (hcs d hd).imp_right fun ⟨_, hd'⟩ ↦ ⟨_, hh.old hd'⟩
      exact ⟨s', Outcome.foldlM_cons_eq_ok.mpr ⟨_, hs₁, hfold⟩, hs'⟩

theorem exists_createFragment (h : s.Wired) {root : NodeId} {n : Node}
    (hn : s.node? root = some n) (partitioning : Partitioning) :
    ∃ s', s.createFragment root partitioning = .ok (s.nextFragment, s') ∧ s'.Wired := by
  obtain ⟨members, hmembers⟩ := h.descending.exists_segment h.ordered hn
  have hcut := h.ordered.recut_cutOff hmembers partitioning
  have hinputs : ∀ f ∈ members.filterMap (·.input?), f ≠ s.nextFragment ∧
      ∃ z, (s.cutOff root partitioning members).fragment? f = some z := by
    intro f hf
    obtain ⟨e, m, _, hm, hkind⟩ := (mem_inputs_of_segment hmembers).mp hf
    obtain ⟨z, hz⟩ := h.input hm hkind
    exact ⟨hcut.parted.id_ne hz, _, hcut.parted.fragment hz⟩
  have horphan : (s.cutOff root partitioning members).parent? s.nextFragment = none := by
    rw [parent?_eq hcut.cut, Fragment.rehomed_nil]
  obtain ⟨s', hfold, hs'⟩ := (h.recut hcut).exists_adoptAll hcut.cut horphan hinputs
  exact ⟨s', createFragment_eq_ok.mpr ⟨rfl, members, hmembers, hfold⟩, hs'⟩

theorem addExchange_cases (h : s.Wired) {f : FragmentId} {x : Fragment}
    (hx : s.fragment? f = some x) (partitioning : Partitioning) :
    (∃ s', s.addExchange f partitioning = .ok (s.nextNode, s') ∧ s'.Wired) ∨
      s.addExchange f partitioning = .error (.exchangeFed f) := by
  obtain ⟨n, hn⟩ := h.root hx
  cases hdest : x.destination with
  | none =>
    refine .inl ⟨_, addExchange_eq_ok.mpr ⟨rfl, x, n, hx, hdest, hn, rfl⟩, ?_⟩
    have hadd : (s.add (exchangeOver f x n)).2.Wired := by
      apply h.add rfl
      · intro c hc
        rw [List.mem_singleton.mp hc]
        exact ⟨n, hn⟩
      · intro g hg
        obtain rfl := NodeKind.exchange.inj hg
        exact ⟨x, hx⟩
    exact hadd.modifyFragment (g := fed f s.nextNode partitioning) (fun _ ↦ rfl) (fun _ ↦ rfl)
      (fun _ ↦ rfl) f
  | some e =>
    right
    rw [addExchange, fragment_eq_ok.mpr hx, Outcome.ok_bind, hdest]
    rfl

end Wired

/-- The calls by which a plan is put together. -/
inductive Call
  | addNode (kind : NodeKind) (children : List NodeId)
  | addExchange (input : FragmentId) (partitioning : Partitioning)
  | createFragment (root : NodeId) (partitioning : Partitioning)
  | setSink (fragment : FragmentId) (kind : SinkKind)
  | moveChild (child source target : FragmentId)

namespace Call

def perform (s : Session) : Call → Except Error Session
  | addNode kind children => .ok (s.add fun id ↦ { id, kind, children }).2
  | addExchange input partitioning => do return (← s.addExchange input partitioning).2
  | createFragment root partitioning => do return (← s.createFragment root partitioning).2
  | setSink fragment kind => .ok (s.setSink fragment kind)
  | moveChild child source target => s.moveChild child source target

/-- What is left behind when a call fails: a move begins with the list of the source. -/
def abandon (s : Session) : Call → Session
  | moveChild child source _ => s.modifyFragment source (·.removeChild child)
  | _ => s

def apply (s : Session) (call : Call) : Session :=
  match call.perform s with
  | .ok s' => s'
  | .error _ => call.abandon s

def run (s : Session) (calls : List Call) : Session := calls.foldl apply s

/-- What a call refers to is there, exchanges are not added as plain nodes, and no fragment is moved
into its own tree. -/
def Permitted (s : Session) : Call → Prop
  | addNode kind children =>
    (∀ f, kind ≠ .exchange f) ∧ ∀ c ∈ children, ∃ n, s.node? c = some n
  | addExchange input _ => ∃ x, s.fragment? input = some x
  | createFragment root _ => ∃ n, s.node? root = some n
  | setSink fragment _ => ∃ x, s.fragment? fragment = some x
  | moveChild child source target =>
    (∀ f ∈ [child, source, target], ∃ x, s.fragment? f = some x) ∧
      ((∃ s', s.moveChild child source target = .ok s') → ¬s.InTree child target)

/-- Every call of a run is permitted when it is made. -/
def Permits : Session → List Call → Prop
  | _, [] => True
  | s, call :: calls => call.Permitted s ∧ Permits (call.apply s) calls

/-- The only error of a call. -/
def refusal? : Call → Option Error
  | addExchange input _ => some (.exchangeFed input)
  | moveChild child source _ => some (.notChild child source)
  | _ => none

variable {call : Call} {calls : List Call}

theorem apply_of_ok (h : call.perform s = .ok s') : call.apply s = s' := by
  rw [apply, h]

theorem apply_of_error {e : Error} (h : call.perform s = .error e) :
    call.apply s = call.abandon s := by
  rw [apply, h]

/-- A permitted call comes to its end, or it is refused and nothing has changed. -/
theorem perform_cases (h : s.Wired) (hcall : call.Permitted s) :
    (∃ s', call.perform s = .ok s' ∧ s'.Wired) ∨
      ∃ e, call.refusal? = some e ∧ call.perform s = .error e ∧ call.abandon s = s := by
  cases call with
  | addNode kind children =>
    obtain ⟨hkind, hchildren⟩ := hcall
    exact .inl ⟨_, rfl, h.add rfl hchildren fun f hf ↦ absurd hf (hkind f)⟩
  | addExchange input partitioning =>
    obtain ⟨x, hx⟩ := hcall
    rcases h.addExchange_cases hx partitioning with ⟨s', hs', hwired⟩ | herror
    · exact .inl ⟨s', Outcome.bind_eq_ok.mpr ⟨_, hs', rfl⟩, hwired⟩
    · exact .inr ⟨_, rfl, Outcome.bind_eq_error.mpr (.inl herror), rfl⟩
  | createFragment root partitioning =>
    obtain ⟨n, hn⟩ := hcall
    obtain ⟨s', hs', hwired⟩ := h.exists_createFragment hn partitioning
    exact .inl ⟨s', Outcome.bind_eq_ok.mpr ⟨_, hs', rfl⟩, hwired⟩
  | setSink fragment kind =>
    exact .inl ⟨_, rfl, h.setSink fragment kind⟩
  | moveChild child source target =>
    obtain ⟨hthere, hout⟩ := hcall
    obtain ⟨z, hz⟩ := hthere child List.mem_cons_self
    obtain ⟨x, hx⟩ := hthere source (by simp)
    obtain ⟨y, hy⟩ := hthere target (by simp)
    rcases h.linked.moveChild_cases hx hy hz with ⟨_, s', hs', hh⟩ | ⟨hparent, herror⟩
    · exact .inl ⟨s', hs', h.hung hh hy hz (hout ⟨s', hs'⟩)⟩
    · exact .inr ⟨_, rfl, herror, h.linked.modifyFragment_removeChild h.ordered hparent⟩

theorem wired_apply (h : s.Wired) (hcall : call.Permitted s) : (call.apply s).Wired := by
  rcases perform_cases h hcall with ⟨s', hs', hwired⟩ | ⟨e, _, herror, hsame⟩
  · rwa [apply_of_ok hs']
  · rwa [apply_of_error herror, hsame]

theorem wired_run (h : s.Wired) (hcalls : Permits s calls) : (run s calls).Wired := by
  induction calls generalizing s with
  | nil => exact h
  | cons call calls ih => exact ih (wired_apply h hcalls.1) hcalls.2

/-- After any calls on a new session, parents and children agree, no child is listed twice, and no
fragment is its own ancestor. A call is refused only if an exchange would be fed twice or a fragment
is not the child of the one that it is moved from, and then nothing has changed. -/
theorem linked_run {options : Options} {cluster : Cluster}
    (hcalls : Permits { options, cluster } calls) (hs : run { options, cluster } calls = s) :
    s.Linked ∧ s.Acyclic ∧
      (∀ call : Call, call.Permitted s → ∀ e, call.perform s = .error e →
        call.refusal? = some e ∧ call.apply s = s) ∧
      ∀ child source target, (∀ f ∈ [child, source, target], ∃ x, s.fragment? f = some x) →
        ((∃ e, s.moveChild child source target = .error e) ↔ s.parent? child ≠ some source) := by
  have hnew : Session.Wired { options, cluster } := .empty rfl rfl
  have h : s.Wired := hs ▸ wired_run hnew hcalls
  refine ⟨h.linked, h.acyclic, fun call hcall e he ↦ ?_, fun child source target hthere ↦ ?_⟩
  · rcases perform_cases h hcall with ⟨s', hs', _⟩ | ⟨e', hrefusal, herror, hsame⟩
    · cases he.symm.trans hs'
    · obtain rfl := Except.error.inj (he.symm.trans herror)
      exact ⟨hrefusal, (apply_of_error he).trans hsame⟩
  · obtain ⟨z, hz⟩ := hthere child List.mem_cons_self
    obtain ⟨x, hx⟩ := hthere source (by simp)
    obtain ⟨y, hy⟩ := hthere target (by simp)
    rcases h.linked.moveChild_cases hx hy hz with ⟨hparent, s', hs', _⟩ | ⟨hparent, herror⟩
    · refine iff_of_false ?_ (not_not_intro hparent)
      rintro ⟨e, he⟩
      cases he.symm.trans hs'
    · exact iff_of_true ⟨_, herror⟩ hparent

/-- A fragment is adopted and handed over, and those that have had it are adopted by a last one. The
last move asks for it where it was at first. -/
def handover : List Call :=
  [.addNode .emptySet [], .createFragment ⟨0⟩ .random, .addExchange ⟨0⟩ .unpartitioned,
    .createFragment ⟨1⟩ .unpartitioned, .addNode .emptySet [], .createFragment ⟨2⟩ .unpartitioned,
    .moveChild ⟨0⟩ ⟨1⟩ ⟨2⟩, .addExchange ⟨1⟩ .unpartitioned, .addExchange ⟨2⟩ .unpartitioned,
    .addNode .union [⟨3⟩, ⟨4⟩], .createFragment ⟨5⟩ .unpartitioned, .moveChild ⟨0⟩ ⟨1⟩ ⟨3⟩]

theorem exists_of_isSome {α β : Type} {f : α → Option β} {l : List α}
    (h : ∀ i ∈ l, (f i).isSome = true) : ∀ i ∈ l, ∃ x, f i = some x :=
  fun i hi ↦ Option.isSome_iff_exists.mp (h i hi)

theorem permits_handover : Permits {} handover :=
  ⟨⟨by simp, by simp⟩,
    Option.isSome_iff_exists.mp (by decide),
    Option.isSome_iff_exists.mp (by decide),
    Option.isSome_iff_exists.mp (by decide),
    ⟨by simp, by simp⟩,
    Option.isSome_iff_exists.mp (by decide),
    ⟨exists_of_isSome (by decide), fun _ ↦ not_inTree_of_orphan (by decide) (by decide)⟩,
    Option.isSome_iff_exists.mp (by decide),
    Option.isSome_iff_exists.mp (by decide),
    ⟨by simp, exists_of_isSome (by decide)⟩,
    Option.isSome_iff_exists.mp (by decide),
    ⟨exists_of_isSome (by decide), fun _ ↦ not_inTree_of_orphan (by decide) (by decide)⟩,
    trivial⟩

theorem linked_run_handover :
    Permits {} handover ∧ (run {} handover).Linked ∧ (run {} handover).Acyclic ∧
      (run {} handover).parent? ⟨0⟩ = some ⟨2⟩ ∧
      ∃ e, (run {} handover).moveChild ⟨0⟩ ⟨1⟩ ⟨3⟩ = .error e := by
  obtain ⟨hlinked, hacyclic, -, hmove⟩ := linked_run permits_handover rfl
  exact ⟨permits_handover, hlinked, hacyclic, by decide,
    (hmove ⟨0⟩ ⟨1⟩ ⟨3⟩ (exists_of_isSome (by decide))).mpr (by decide)⟩

end Call

end Session

end QueryPlanning
