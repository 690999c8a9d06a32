import Mathlib.Data.List.Nodup
import QueryPlanning.Plan.Session
import QueryPlanning.Proofs.Outcome

/-!
# Nodes and fragments by number

Items that are numbered by their positions are found under these numbers and under no others. The
nodes and fragments of a session are numbered in this way, and the operations of a session change
what is found in the way stated here for each of them.
-/

namespace QueryPlanning

namespace Numbered

variable {α : Type} {kind : IdKind} {idOf : α → Id kind} {items : List α}

/-- Every item carries the number of its position. -/
def Positional (idOf : α → Id kind) (items : List α) : Prop :=
  ∀ k a, items[k]? = some a → idOf a = .ofNat k

theorem ofNat_injective {m n : Nat} (h : (Id.ofNat m : Id kind) = .ofNat n) : m = n := by
  exact Int.ofNat.inj (congrArg Id.val h)

theorem Positional.get?_ofNat (h : Positional idOf items) (k : Nat) :
    get? idOf items (.ofNat k) = items[k]? := by
  cases hk : items[k]? with
  | some a =>
    have ha := h k a hk
    obtain ⟨hlt, hget⟩ := List.getElem?_eq_some_iff.mp hk
    rw [get?, List.find?_eq_some_iff_getElem]
    refine ⟨by simpa using ha, k, hlt, hget, ?_⟩
    intro j hj
    have hj' := h j items[j] (List.getElem?_eq_getElem (by omega))
    simp only [hj', Bool.not_eq_eq_eq_not, Bool.not_true, decide_eq_false_iff_not]
    intro he
    have := ofNat_injective he
    omega
  | none =>
    rw [get?, List.find?_eq_none]
    intro a ha
    obtain ⟨j, hj⟩ := List.mem_iff_getElem?.mp ha
    rw [h j a hj, decide_eq_true_eq]
    intro he
    rw [ofNat_injective he, hk] at hj
    cases hj

theorem Positional.get?_eq_some (h : Positional idOf items) {i : Id kind} {a : α} :
    get? idOf items i = some a ↔ ∃ k, i = .ofNat k ∧ items[k]? = some a := by
  constructor
  · intro hi
    obtain ⟨k, hk⟩ := List.mem_iff_getElem?.mp (mem_of_get? hi)
    exact ⟨k, (idOf_of_get? hi).symm.trans (h k a hk), hk⟩
  · rintro ⟨k, rfl, hk⟩
    rw [h.get?_ofNat, hk]

theorem Positional.get?_of_mem (h : Positional idOf items) {a : α} (ha : a ∈ items) :
    get? idOf items (idOf a) = some a := by
  obtain ⟨k, hk⟩ := List.mem_iff_getElem?.mp ha
  exact h.get?_eq_some.mpr ⟨k, h k a hk, hk⟩

theorem Positional.get?_next (h : Positional idOf items) :
    get? idOf items (.ofNat items.length) = none := by
  rw [h.get?_ofNat]
  exact List.getElem?_eq_none (Nat.le_refl _)

theorem getElem?_concat_cases {k : Nat} {a b : α} (h : (items ++ [a])[k]? = some b) :
    items[k]? = some b ∨ (k = items.length ∧ b = a) := by
  rcases Nat.lt_trichotomy k items.length with hk | rfl | hk
  · rw [List.getElem?_append_left hk] at h
    exact .inl h
  · rw [List.getElem?_concat_length] at h
    exact .inr ⟨rfl, (Option.some.inj h).symm⟩
  · rw [List.getElem?_eq_none (by simp; omega)] at h
    cases h

theorem Positional.append (h : Positional idOf items) {a : α}
    (ha : idOf a = .ofNat items.length) : Positional idOf (items ++ [a]) := by
  intro k b hb
  rcases getElem?_concat_cases hb with hb | ⟨rfl, rfl⟩
  · exact h k b hb
  · exact ha

theorem Positional.map (h : Positional idOf items) {f : α → α}
    (hf : ∀ a, idOf (f a) = idOf a) : Positional idOf (items.map f) := by
  intro k b hb
  rw [List.getElem?_map, Option.map_eq_some_iff] at hb
  obtain ⟨a, ha, rfl⟩ := hb
  rw [hf, h k a ha]

theorem Positional.modify (h : Positional idOf items) {i : Id kind} {f : α → α}
    (hf : ∀ a, idOf (f a) = idOf a) : Positional idOf (modify idOf i f items) := by
  apply h.map
  intro a
  split
  · exact hf a
  · rfl

theorem map_idOf_modify {f : α → α} (hf : ∀ a, idOf (f a) = idOf a) (i : Id kind)
    (items : List α) : (modify idOf i f items).map idOf = items.map idOf := by
  rw [Numbered.modify, List.map_map]
  apply List.map_congr_left
  intro a _
  simp only [Function.comp_apply]
  split
  · exact hf a
  · rfl

/-- Only the identifiers matter. -/
theorem Positional.of_map_idOf (h : Positional idOf items) {items' : List α}
    (hids : items'.map idOf = items.map idOf) : Positional idOf items' := by
  intro k a ha
  have hk : (items.map idOf)[k]? = some (idOf a) := by
    rw [← hids, List.getElem?_map, ha]
    rfl
  rw [List.getElem?_map, Option.map_eq_some_iff] at hk
  obtain ⟨b, hb, heq⟩ := hk
  rw [← heq, h k b hb]

theorem get?_append (i : Id kind) (a : α) :
    get? idOf (items ++ [a]) i = (get? idOf items i).or (if idOf a = i then some a else none) := by
  simp only [get?, List.find?_append]
  congr 1
  by_cases h : idOf a = i <;> simp [h]

theorem get?_map {f : α → α} (hf : ∀ a, idOf (f a) = idOf a) (i : Id kind) :
    get? idOf (items.map f) i = (get? idOf items i).map f := by
  simp only [get?, List.find?_map]
  congr 2
  funext a
  simp [hf]

theorem Positional.nodup (h : Positional idOf items) : (items.map idOf).Nodup := by
  rw [List.nodup_iff_getElem?_ne_getElem?]
  intro i j hij hj he
  rw [List.length_map] at hj
  rw [List.getElem?_map, List.getElem?_map, List.getElem?_eq_getElem hj,
    List.getElem?_eq_getElem (by omega)] at he
  simp only [Option.map_some, Option.some.injEq] at he
  rw [h i _ (List.getElem?_eq_getElem (by omega)), h j _ (List.getElem?_eq_getElem hj)] at he
  exact absurd (ofNat_injective he) (by omega)

end Numbered

namespace Session

/-- Nodes and fragments are numbered in the order in which they were added. -/
structure Ordered (s : Session) : Prop where
  nodes : Numbered.Positional Node.id s.nodes
  fragments : Numbered.Positional Fragment.id s.fragments

@[simp]
theorem node_eq_ok {s : Session} {i : NodeId} {n : Node} :
    s.node i = .ok n ↔ s.node? i = some n := by
  unfold node
  split <;> simp [*]

@[simp]
theorem fragment_eq_ok {s : Session} {f : FragmentId} {x : Fragment} :
    s.fragment f = .ok x ↔ s.fragment? f = some x := by
  unfold fragment
  split <;> simp [*]

theorem id_of_node? {s : Session} {i : NodeId} {n : Node} (h : s.node? i = some n) : n.id = i :=
  Numbered.idOf_of_get? h

theorem id_of_fragment? {s : Session} {f : FragmentId} {x : Fragment}
    (h : s.fragment? f = some x) : x.id = f :=
  Numbered.idOf_of_get? h

theorem Ordered.ne_invalid {s : Session} (h : s.Ordered) {f : FragmentId} {x : Fragment}
    (hx : s.fragment? f = some x) : f ≠ .invalid := by
  obtain ⟨k, rfl, _⟩ := h.fragments.get?_eq_some.mp hx
  intro hk
  have hvalid : (Id.ofNat k : FragmentId).isValid = true := Id.isValid_ofNat k
  rw [hk] at hvalid
  cases hvalid

theorem Ordered.mem_ids {s : Session} (h : s.Ordered) {f : FragmentId} :
    f ∈ s.fragments.map (·.id) ↔ ∃ x, s.fragment? f = some x := by
  rw [List.mem_map]
  constructor
  · rintro ⟨x, hx, rfl⟩
    exact ⟨x, h.fragments.get?_of_mem hx⟩
  · rintro ⟨x, hx⟩
    exact ⟨x, Numbered.mem_of_get? hx, id_of_fragment? hx⟩

theorem Ordered.lt_length {s : Session} (h : s.Ordered) {i : NodeId} {n : Node}
    (hn : s.node? i = some n) : i.val < s.nodes.length := by
  obtain ⟨k, rfl, hk⟩ := h.nodes.get?_eq_some.mp hn
  have := (List.getElem?_eq_some_iff.mp hk).1
  exact Int.ofNat_lt.mpr this

theorem Ordered.val_nonneg {s : Session} (h : s.Ordered) {i : NodeId} {n : Node}
    (hn : s.node? i = some n) : 0 ≤ i.val := by
  obtain ⟨k, rfl, _⟩ := h.nodes.get?_eq_some.mp hn
  exact Int.natCast_nonneg k

theorem node?_modifyNode {g : Node → Node} (hg : ∀ n, (g n).id = n.id) (s : Session)
    (i j : NodeId) :
    (s.modifyNode i g).node? j = if j = i then (s.node? j).map g else s.node? j :=
  Numbered.get?_modify hg s.nodes i j

theorem fragment?_modifyFragment {g : Fragment → Fragment} (hg : ∀ x, (g x).id = x.id)
    (s : Session) (f h : FragmentId) :
    (s.modifyFragment f g).fragment? h =
      if h = f then (s.fragment? h).map g else s.fragment? h :=
  Numbered.get?_modify hg s.fragments f h

theorem fragment?_modifyFragment_eq_map {g : Fragment → Fragment} (hg : ∀ x, (g x).id = x.id)
    (s : Session) (f h : FragmentId) :
    (s.modifyFragment f g).fragment? h =
      (s.fragment? h).map fun x ↦ if x.id = f then g x else x := by
  refine Numbered.get?_map (fun x ↦ ?_) h
  split
  · exact hg x
  · rfl

theorem Ordered.modifyNode {s : Session} (h : s.Ordered) {g : Node → Node}
    (hg : ∀ n, (g n).id = n.id) (i : NodeId) : (s.modifyNode i g).Ordered :=
  ⟨h.nodes.modify hg, h.fragments⟩

theorem Ordered.modifyFragment {s : Session} (h : s.Ordered) {g : Fragment → Fragment}
    (hg : ∀ x, (g x).id = x.id) (f : FragmentId) : (s.modifyFragment f g).Ordered :=
  ⟨h.nodes, h.fragments.modify hg⟩

theorem fragment?_setSink (s : Session) (f : FragmentId) (kind : SinkKind) (g : FragmentId) :
    (s.setSink f kind).fragment? g =
      if g = f then (s.fragment? g).map ({ · with sink := some { fragment := f, kind } })
      else s.fragment? g := by
  apply fragment?_modifyFragment
  intro x
  rfl

theorem Ordered.setSink {s : Session} (h : s.Ordered) (f : FragmentId) (kind : SinkKind) :
    (s.setSink f kind).Ordered := by
  apply h.modifyFragment
  intro x
  rfl

theorem Ordered.node?_nextNode {s : Session} (h : s.Ordered) : s.node? s.nextNode = none :=
  h.nodes.get?_next

theorem Ordered.fragment?_nextFragment {s : Session} (h : s.Ordered) :
    s.fragment? s.nextFragment = none :=
  h.fragments.get?_next

@[simp]
theorem fragment?_add (s : Session) (node : NodeId → Node) (f : FragmentId) :
    (s.add node).2.fragment? f = s.fragment? f := rfl

theorem Ordered.node?_add {s : Session} (h : s.Ordered) {node : NodeId → Node}
    (hid : (node s.nextNode).id = s.nextNode) (i : NodeId) :
    (s.add node).2.node? i = if i = s.nextNode then some (node s.nextNode) else s.node? i := by
  have happ : (s.add node).2.node? i =
      (s.node? i).or (if (node s.nextNode).id = i then some (node s.nextNode) else none) :=
    Numbered.get?_append i _
  rw [happ, hid]
  by_cases hi : i = s.nextNode
  · rw [hi, h.node?_nextNode]
    simp
  · have hi' : ¬s.nextNode = i := fun he ↦ hi he.symm
    simp [hi, hi']

theorem Ordered.add {s : Session} (h : s.Ordered) {node : NodeId → Node}
    (hid : (node s.nextNode).id = s.nextNode) : (s.add node).2.Ordered :=
  ⟨h.nodes.append hid, h.fragments⟩

theorem node?_assign (s : Session) (members : List NodeId) (f : FragmentId) (i : NodeId) :
    (s.assign members f).node? i =
      (s.node? i).map fun n ↦ if members.contains n.id then { n with fragment := f } else n := by
  refine Numbered.get?_map (fun n ↦ ?_) i
  split <;> rfl

end Session

end QueryPlanning
