import QueryPlanning.Proofs.Plan.Coherence

/-!
# Fragments that change their parents

A fragment becomes the child of another one in two ways: it is adopted, if it had no parent, or it
is moved from the parent that it had. Afterwards it is listed as a child of the new parent and
nowhere else. A loop that does this to several fragments does it to all of them at once.
-/

namespace QueryPlanning

/-- A fragment after others have become children of the fragment `target`. -/
def Fragment.rehomed (target : FragmentId) (inputs : List FragmentId) (x : Fragment) : Fragment :=
  if x.id = target then { x with children := x.children ++ inputs }
  else { x with
    parent := if inputs.contains x.id then some target else x.parent
    children := x.children.filter (!inputs.contains ·) }

namespace Fragment

variable {target : FragmentId} {inputs : List FragmentId} {x : Fragment}

@[simp]
theorem rehomed_id : (x.rehomed target inputs).id = x.id := by
  unfold rehomed
  split <;> rfl

@[simp]
theorem rehomed_root : (x.rehomed target inputs).root = x.root := by
  unfold rehomed
  split <;> rfl

@[simp]
theorem rehomed_partitioning : (x.rehomed target inputs).partitioning = x.partitioning := by
  unfold rehomed
  split <;> rfl

@[simp]
theorem rehomed_destination : (x.rehomed target inputs).destination = x.destination := by
  unfold rehomed
  split <;> rfl

@[simp]
theorem rehomed_sink : (x.rehomed target inputs).sink = x.sink := by
  unfold rehomed
  split <;> rfl

@[simp]
theorem rehomed_plan : (x.rehomed target inputs).plan = x.plan := by
  unfold rehomed
  split <;> rfl

@[simp]
theorem rehomed_cohort : (x.rehomed target inputs).cohort = x.cohort := by
  unfold rehomed
  split <;> rfl

@[simp]
theorem rehomed_nil : x.rehomed target [] = x := by
  unfold rehomed
  split <;> simp

theorem rehomed_target (h : x.id = target) :
    x.rehomed target inputs = { x with children := x.children ++ inputs } := by
  rw [rehomed, if_pos h]

theorem rehomed_of_ne (h : x.id ≠ target) :
    x.rehomed target inputs = { x with
      parent := if inputs.contains x.id then some target else x.parent
      children := x.children.filter (!inputs.contains ·) } := by
  rw [rehomed, if_neg h]

theorem rehomed_rehomed (c : FragmentId) :
    (x.rehomed target [c]).rehomed target inputs = x.rehomed target (c :: inputs) := by
  by_cases h : x.id = target
  · have hid : (x.rehomed target [c]).id = target := rehomed_id.trans h
    rw [rehomed_target hid, rehomed_target h, rehomed_target h]
    simp
  · have hid : (x.rehomed target [c]).id ≠ target := rehomed_id.trans_ne h
    rw [rehomed_of_ne hid, rehomed_of_ne h, rehomed_of_ne h]
    simp only [List.filter_filter, List.contains_cons, List.contains_nil, Bool.or_false,
      Bool.not_or, mk.injEq, true_and, and_true]
    constructor
    · by_cases hc : x.id = c <;> by_cases hx : x.id ∈ inputs <;> simp [hc, hx]
    · exact List.filter_congr fun d _ ↦ Bool.and_comm _ _

end Fragment

namespace Session

variable {s s' s'' : Session} {target : FragmentId}

/-- Some fragments have become children of the fragment `target`. -/
structure Rehomed (s s' : Session) (target : FragmentId) (inputs : List FragmentId) : Prop where
  nodes : s'.nodes = s.nodes
  ordered : s.Ordered → s'.Ordered
  fragment (f : FragmentId) :
    s'.fragment? f = (s.fragment? f).map (Fragment.rehomed target inputs)

/-- A fragment other than `target` has a parent, or none, and is listed nowhere else. -/
structure Listed (s : Session) (target : FragmentId) (home : Option FragmentId)
    (c : FragmentId) : Prop where
  ne : c ≠ target
  parent : s.parent? c = home
  listed {f : FragmentId} {y : Fragment} :
    s.fragment? f = some y → c ∈ y.children → home = some f

theorem Rehomed.refl (s : Session) (target : FragmentId) : s.Rehomed s target [] := by
  refine ⟨rfl, id, fun f ↦ ?_⟩
  cases s.fragment? f <;> simp

theorem Rehomed.cons {c : FragmentId} {cs : List FragmentId} (h : s.Rehomed s' target [c])
    (h' : s'.Rehomed s'' target cs) : s.Rehomed s'' target (c :: cs) := by
  refine ⟨h'.nodes.trans h.nodes, fun ho ↦ h'.ordered (h.ordered ho), fun f ↦ ?_⟩
  rw [h'.fragment, h.fragment, Option.map_map]
  congr 1
  funext x
  exact Fragment.rehomed_rehomed c

theorem Rehomed.parent? {inputs : List FragmentId} (h : s.Rehomed s' target inputs)
    {c : FragmentId} (hne : c ≠ target) (hc : c ∉ inputs) : s'.parent? c = s.parent? c := by
  rw [Session.parent?, Session.parent?, h.fragment]
  cases hx : s.fragment? c with
  | none => rfl
  | some x =>
    have hid := id_of_fragment? hx
    rw [Option.map_some, Option.bind_some, Option.bind_some,
      Fragment.rehomed_of_ne (by rwa [hid]), hid]
    simp [hc]

theorem Listed.of_rehomed {home : Option FragmentId} {c d : FragmentId}
    (h : s.Listed target home d) (hr : s.Rehomed s' target [c]) (hne : d ≠ c) :
    s'.Listed target home d := by
  refine ⟨h.ne, ?_, ?_⟩
  · rw [hr.parent? h.ne (by simpa using hne), h.parent]
  · intro f y' hy' hd
    rw [hr.fragment, Option.map_eq_some_iff] at hy'
    obtain ⟨y, hy, rfl⟩ := hy'
    apply h.listed hy
    by_cases hf : y.id = target
    · rw [Fragment.rehomed_target hf] at hd
      simpa [hne] using hd
    · rw [Fragment.rehomed_of_ne hf] at hd
      exact List.mem_of_mem_filter hd

/-- What a loop does that rehomes one fragment after the other. -/
theorem Rehomed.of_foldlM {g : Session → FragmentId → Except Error Session}
    {home : Option FragmentId}
    (hg : ∀ {s s' : Session} {c : FragmentId}, s.Listed target home c → g s c = .ok s' →
      s.Rehomed s' target [c])
    {cs : List FragmentId} (hcs : cs.Nodup) (hlisted : ∀ c ∈ cs, s.Listed target home c)
    (h : cs.foldlM g s = .ok s') : s.Rehomed s' target cs := by
  induction cs generalizing s with
  | nil =>
    rw [List.foldlM_nil, Outcome.pure_eq_ok] at h
    rw [h]
    exact .refl s' target
  | cons c cs ih =>
    obtain ⟨d, hd, h⟩ := Outcome.foldlM_cons_eq_ok.mp h
    obtain ⟨hc, hcs⟩ := List.nodup_cons.mp hcs
    have hstep := hg (hlisted c List.mem_cons_self) hd
    refine hstep.cons (ih hcs ?_ h)
    intro c' hc'
    apply (hlisted c' (List.mem_cons_of_mem _ hc')).of_rehomed hstep
    rintro rfl
    exact hc hc'

/-- A child is taken out of the list of its parent only. -/
theorem Listed.filter_children {home : Option FragmentId} {c f : FragmentId} {y : Fragment}
    (h : s.Listed target home c) (hy : s.fragment? f = some y) (hf : home ≠ some f) :
    y.children.filter (!([c] : List FragmentId).contains ·) = y.children := by
  rw [List.filter_eq_self]
  intro d hd
  have hne : d ≠ c := by
    rintro rfl
    exact hf (h.listed hy hd)
  simpa using hne

theorem Rehomed.of_adopt {c : FragmentId} (h : s.Listed target none c)
    (hs : s.adopt target c = .ok s') : s.Rehomed s' target [c] := by
  simp only [adopt, Outcome.bind_eq_ok, fragment_eq_ok] at hs
  obtain ⟨x, hx, hs⟩ := hs
  have hparent : x.parent = none := (parent?_eq hx).symm.trans h.parent
  rw [hparent] at hs
  obtain rfl := Outcome.pure_eq_ok.mp hs
  let setParent := fun y : Fragment ↦ { y with parent := some target }
  refine ⟨rfl, fun ho ↦ ?_, fun f ↦ ?_⟩
  · exact (ho.modifyFragment (g := setParent) (fun _ ↦ rfl) c).modifyFragment
      (g := (·.addChild c)) (fun _ ↦ rfl) target
  · rw [fragment?_modifyFragment (g := (·.addChild c)) (fun _ ↦ rfl),
      fragment?_modifyFragment (g := setParent) (fun _ ↦ rfl)]
    cases hy : s.fragment? f with
    | none => simp
    | some y =>
      obtain rfl := id_of_fragment? hy
      by_cases hf : y.id = target
      · have hc : y.id ≠ c := fun he ↦ h.ne (he.symm.trans hf)
        rw [if_pos hf, if_neg hc, Option.map_some, Option.map_some, Fragment.rehomed_target hf]
        rfl
      · have hchildren := h.filter_children hy (by simp)
        rw [if_neg hf, Option.map_some, Option.map_some, Fragment.rehomed_of_ne hf, hchildren]
        by_cases hc : y.id = c <;> simp [setParent, hc]

theorem Rehomed.of_moveInput {source c : FragmentId} (h : s.Listed target (some source) c)
    (hne : source ≠ target) (hs : s.moveInput target c = .ok s') : s.Rehomed s' target [c] := by
  simp only [moveInput, Outcome.bind_eq_ok, fragment_eq_ok] at hs
  obtain ⟨x, hx, hs⟩ := hs
  have hparent : x.parent = some source := (parent?_eq hx).symm.trans h.parent
  rw [hparent] at hs
  simp only [moveChild, Outcome.bind_eq_ok, fragment_eq_ok] at hs
  obtain ⟨_, _, hs⟩ := hs
  split at hs
  · cases hs
  simp only [Outcome.bind_eq_ok, Outcome.pure_eq_ok] at hs
  obtain ⟨_, _, _, _, rfl⟩ := hs
  let setParent := fun y : Fragment ↦ { y with parent := some target }
  refine ⟨rfl, fun ho ↦ ?_, fun f ↦ ?_⟩
  · exact ((ho.modifyFragment (g := (·.removeChild c)) (fun _ ↦ rfl) source).modifyFragment
      (g := (·.addChild c)) (fun _ ↦ rfl) target).modifyFragment (g := setParent)
      (fun _ ↦ rfl) c
  · rw [fragment?_modifyFragment (g := setParent) (fun _ ↦ rfl),
      fragment?_modifyFragment (g := (·.addChild c)) (fun _ ↦ rfl),
      fragment?_modifyFragment (g := (·.removeChild c)) (fun _ ↦ rfl)]
    cases hy : s.fragment? f with
    | none => simp
    | some y =>
      obtain rfl := id_of_fragment? hy
      by_cases hf : y.id = target
      · have hc : y.id ≠ c := fun he ↦ h.ne (he.symm.trans hf)
        have hsource : y.id ≠ source := fun he ↦ hne (he.symm.trans hf)
        rw [if_neg hc, if_pos hf, if_neg hsource, Option.map_some, Option.map_some,
          Fragment.rehomed_target hf]
        rfl
      · have hremoved : (if y.id = source then (some y).map (·.removeChild c) else some y) =
            some (y.removeChild c) := by
          split
          · rfl
          · rename_i hsource
            have hchildren := h.filter_children hy (by simpa using Ne.symm hsource)
            have hfilter : y.children.filter (· ≠ c) = y.children := by simpa using hchildren
            rw [Fragment.removeChild, hfilter]
        rw [if_neg hf, hremoved, Option.map_some, Option.map_some, Fragment.rehomed_of_ne hf]
        by_cases hc : y.id = c <;> simp [setParent, hc, Fragment.removeChild]

theorem exists_moveChild {source c : FragmentId} {x y z : Fragment}
    (hsource : s.fragment? source = some y) (hmem : c ∈ y.children)
    (htarget : s.fragment? target = some x) (hc : s.fragment? c = some z) :
    ∃ s', s.moveChild c source target = .ok s' := by
  rw [moveChild, fragment_eq_ok.mpr hsource, fragment_eq_ok.mpr htarget, fragment_eq_ok.mpr hc]
  simp [bind, Except.bind, pure, Except.pure, hmem]

/-- A fragment that has not been moved yet can be moved. -/
theorem Rehomed.exists_moveInput {inputs : List FragmentId} (h : s.Rehomed s' target inputs)
    {c source : FragmentId} {y : Fragment} (hne : c ≠ target) (hc : c ∉ inputs)
    (hparent : s.parent? c = some source) (hsource : s.fragment? source = some y)
    (hne' : source ≠ target) (hmem : c ∈ y.children)
    (htarget : ∃ x, s.fragment? target = some x) : ∃ s'', s'.moveInput target c = .ok s'' := by
  have hparent' := (h.parent? hne hc).trans hparent
  obtain ⟨z, hz, hz'⟩ : ∃ z, s'.fragment? c = some z ∧ z.parent = some source :=
    Option.bind_eq_some_iff.mp hparent'
  have hsource' := h.fragment source
  have hid := id_of_fragment? hsource
  rw [hsource, Option.map_some, Fragment.rehomed_of_ne (by rwa [hid])] at hsource'
  obtain ⟨x, hx⟩ := htarget
  have htarget' := h.fragment target
  rw [hx, Option.map_some] at htarget'
  obtain ⟨s'', hs''⟩ := exists_moveChild hsource' (by simp [hmem, hc]) htarget' hz
  refine ⟨s'', Outcome.bind_eq_ok.mpr ⟨z, fragment_eq_ok.mpr hz, ?_⟩⟩
  rw [hz']
  exact hs''

end Session

end QueryPlanning
