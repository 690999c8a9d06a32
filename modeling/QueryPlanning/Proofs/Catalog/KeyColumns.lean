import Mathlib.Data.List.Nodup
import QueryPlanning.Catalog.KeyIndex
import QueryPlanning.Catalog.Partition
import QueryPlanning.Proofs.Catalog.LiteralOrder

/-!
# The index of a column

What the index of one clustering column says about the partitions: each bucket holds the partitions
whose value is the same as its key, there is a bucket for every value but null, and the partitions
with a null are in a set apart. Adding a partition and removing one keep that up, on values that are
in total order.

A list of buckets is searched from the front, so a value splits it in two: all before it are
smaller, all after it are larger, and at most one bucket lies between.
-/

namespace QueryPlanning

namespace IdSet

theorem insert_of_lt {s : IdSet} {id : PartitionId} (h : ∀ j ∈ s, j.val < id.val) :
    s.insert id = s ++ [id] := by
  induction s with
  | nil => rfl
  | cons j rest ih =>
    have hlt : j.val < id.val := h j List.mem_cons_self
    have hne : id ≠ j := by
      rintro rfl
      exact Int.lt_irrefl _ hlt
    rw [insert, if_neg (Int.not_lt.mpr (Int.le_of_lt hlt)), if_neg hne, List.cons_append,
      ih fun j hj ↦ h j (List.mem_cons_of_mem _ hj)]

end IdSet

namespace Partition

/-- The partitions whose value in a column passes a test, by identifier. -/
def idsWhere (col : Nat) (test : Literal → Bool) (ps : List Partition) : IdSet :=
  (ps.filter fun p ↦ (p.values[col]?).any test).map (·.id)

variable {col : Nat} {test test' : Literal → Bool} {ps : List Partition} {p : Partition}
  {v : Literal} {id : PartitionId}

theorem mem_idsWhere : id ∈ idsWhere col test ps ↔
    ∃ p ∈ ps, p.id = id ∧ ∃ v, p.values[col]? = some v ∧ test v = true := by
  simp only [idsWhere, List.mem_map, List.mem_filter, Option.any_eq_true]
  constructor
  · rintro ⟨p, ⟨hp, hv⟩, rfl⟩
    exact ⟨p, hp, rfl, hv⟩
  · rintro ⟨p, hp, rfl, hv⟩
    exact ⟨p, ⟨hp, hv⟩, rfl⟩

theorem idsWhere_congr
    (h : ∀ p ∈ ps, ∀ v, p.values[col]? = some v → test v = test' v) :
    idsWhere col test ps = idsWhere col test' ps := by
  unfold idsWhere
  congr 1
  apply List.filter_congr
  intro p hp
  cases hv : p.values[col]? with
  | none => rfl
  | some v => exact h p hp v hv

theorem idsWhere_eq_nil (h : ∀ p ∈ ps, ∀ v, p.values[col]? = some v → test v = false) :
    idsWhere col test ps = [] := by
  apply List.eq_nil_iff_forall_not_mem.mpr
  intro id hid
  obtain ⟨p, hp, _, v, hv, htest⟩ := mem_idsWhere.mp hid
  rw [h p hp v hv] at htest
  cases htest

theorem idsWhere_append_of_true (test : Literal → Bool) (hv : p.values[col]? = some v)
    (htest : test v = true) :
    idsWhere col test (ps ++ [p]) = idsWhere col test ps ++ [p.id] := by
  simp [idsWhere, hv, htest]

theorem idsWhere_append_of_false (test : Literal → Bool) (hv : p.values[col]? = some v)
    (htest : test v = false) :
    idsWhere col test (ps ++ [p]) = idsWhere col test ps := by
  simp [idsWhere, hv, htest]

theorem idsWhere_sublist : (idsWhere col test ps).Sublist (ps.map (·.id)) :=
  List.filter_sublist.map _

/-- The partitions but for the one of an identifier. -/
theorem ids_without (hnodup : (ps.map (·.id)).Nodup) :
    (ps.filter (·.id ≠ id)).map (·.id) = (ps.map (·.id)).erase id := by
  rw [hnodup.erase_eq_filter, List.filter_map]
  congr 1
  apply List.filter_congr
  intro p _
  by_cases h : p.id = id <;> simp [h]

theorem idsWhere_without (hnodup : (ps.map (·.id)).Nodup) :
    idsWhere col test (ps.filter (·.id ≠ id)) = (idsWhere col test ps).erase id := by
  unfold idsWhere
  rw [← ids_without (hnodup.sublist idsWhere_sublist), List.filter_filter, List.filter_filter]
  simp only [Bool.and_comm]

theorem eq_of_id (hnodup : (ps.map (·.id)).Nodup) {q : Partition} (hp : p ∈ ps) (hq : q ∈ ps)
    (h : q.id = p.id) : q = p :=
  List.inj_on_of_nodup_map hnodup hq hp h

/-- Where a partition does not pass the test, it makes no difference to take it out. -/
theorem idsWhere_without_of_false (test : Literal → Bool) (hnodup : (ps.map (·.id)).Nodup)
    (hp : p ∈ ps) (hv : p.values[col]? = some v) (htest : test v = false) :
    idsWhere col test (ps.filter (·.id ≠ p.id)) = idsWhere col test ps := by
  rw [idsWhere_without hnodup]
  apply List.erase_of_not_mem
  intro hmem
  obtain ⟨q, hq, hid, w, hw, hpass⟩ := mem_idsWhere.mp hmem
  obtain rfl := eq_of_id hnodup hp hq hid
  obtain rfl := Option.some.inj (hv.symm.trans hw)
  rw [htest] at hpass
  cases hpass

end Partition

namespace KeyColumn

open Literal QueryPlanning.Partition

abbrev Buckets := List (Literal × IdSet)

section Search

variable {v k : Literal} {id : PartitionId} {ids : IdSet} {before after buckets : Buckets}

theorem bucket?_append (h : ∀ e ∈ before, v.compare e.1 = .gt) :
    bucket? v (before ++ buckets) = bucket? v buckets := by
  induction before with
  | nil => rfl
  | cons e rest ih =>
    rw [List.forall_mem_cons] at h
    rw [List.cons_append, bucket?, h.1]
    exact ih h.2

theorem insertKey_append (h : ∀ e ∈ before, v.compare e.1 = .gt) :
    insertKey v id (before ++ buckets) = before ++ insertKey v id buckets := by
  induction before with
  | nil => rfl
  | cons e rest ih =>
    rw [List.forall_mem_cons] at h
    rw [List.cons_append, insertKey, h.1]
    exact congrArg (e :: ·) (ih h.2)

theorem eraseKey_append (h : ∀ e ∈ before, v.compare e.1 = .gt) :
    eraseKey v id (before ++ buckets) = before ++ eraseKey v id buckets := by
  induction before with
  | nil => rfl
  | cons e rest ih =>
    rw [List.forall_mem_cons] at h
    rw [List.cons_append, eraseKey, h.1]
    exact congrArg (e :: ·) (ih h.2)

theorem bucket?_of_lt (h : ∀ e ∈ after, v.compare e.1 = .lt) : bucket? v after = none := by
  cases after with
  | nil => rfl
  | cons e rest => rw [bucket?, h e List.mem_cons_self]

theorem insertKey_of_lt (h : ∀ e ∈ after, v.compare e.1 = .lt) :
    insertKey v id after = (v, [id]) :: after := by
  cases after with
  | nil => rfl
  | cons e rest => rw [insertKey, h e List.mem_cons_self]

theorem bucket?_of_eq (h : v.compare k = .eq) : bucket? v ((k, ids) :: after) = some ids := by
  rw [bucket?, h]

theorem insertKey_of_eq (h : v.compare k = .eq) :
    insertKey v id ((k, ids) :: after) = (k, ids.insert id) :: after := by
  rw [insertKey, h]

theorem eraseKey_of_eq (h : v.compare k = .eq) :
    eraseKey v id ((k, ids) :: after) =
      if (ids.erase id).isEmpty then after else (k, ids.erase id) :: after := by
  rw [eraseKey, h]

theorem compare_ne_of_split (hbefore : ∀ e ∈ before, v.compare e.1 = .gt)
    (hafter : ∀ e ∈ after, v.compare e.1 = .lt) : ∀ e ∈ before ++ after, v.compare e.1 ≠ .eq := by
  intro e he
  rcases List.mem_append.mp he with he | he
  · rw [hbefore e he]
    nofun
  · rw [hafter e he]
    nofun

theorem mem_middle {e e' : Literal × IdSet} :
    e ∈ before ++ e' :: after ↔ e = e' ∨ e ∈ before ++ after :=
  List.perm_middle.mem_iff.trans List.mem_cons

/-- A value splits ascending buckets into those below it, at most one with its key and those above
it. -/
theorem exists_split {P : Literal → Prop} (hP : OrderedOn P) (hv : P v)
    (hkeys : ∀ e ∈ buckets, P e.1)
    (hascending : buckets.Pairwise fun a b ↦ a.1.compare b.1 = .lt) :
    ∃ before after, (∀ e ∈ before, v.compare e.1 = .gt) ∧ (∀ e ∈ after, v.compare e.1 = .lt) ∧
      (buckets = before ++ after ∨
        ∃ k ids, v.compare k = .eq ∧ buckets = before ++ (k, ids) :: after) := by
  induction buckets with
  | nil => exact ⟨[], [], List.forall_mem_nil _, List.forall_mem_nil _, .inl rfl⟩
  | cons e rest ih =>
    rw [List.forall_mem_cons] at hkeys
    obtain ⟨habove, hrest⟩ := List.pairwise_cons.mp hascending
    cases hcmp : v.compare e.1 with
    | lt =>
      refine ⟨[], e :: rest, List.forall_mem_nil _, ?_, .inl rfl⟩
      rw [List.forall_mem_cons]
      refine ⟨hcmp, fun e' he' ↦ ?_⟩
      exact hP.lt_trans hv hkeys.1 (hkeys.2 e' he') hcmp (habove e' he')
    | eq =>
      refine ⟨[], rest, List.forall_mem_nil _, fun e' he' ↦ ?_, .inr ⟨e.1, e.2, hcmp, rfl⟩⟩
      rw [hP.congr_left hv hkeys.1 (hkeys.2 e' he') hcmp]
      exact habove e' he'
    | gt =>
      obtain ⟨before, after, hbefore, hafter, hsplit⟩ := ih hkeys.2 hrest
      refine ⟨e :: before, after, ?_, hafter, ?_⟩
      · rw [List.forall_mem_cons]
        exact ⟨hcmp, hbefore⟩
      · rcases hsplit with rfl | ⟨k, ids, hk, rfl⟩
        · exact .inl rfl
        · exact .inr ⟨k, ids, hk, rfl⟩

end Search

/-! ## Buckets of the right partitions -/

/-- The buckets hold the partitions by the values of a column, all of which have a property. -/
structure Bucketed (P : Literal → Prop) (col : Nat) (ps : List Partition) (buckets : Buckets) :
    Prop where
  stored {p : Partition} {v : Literal} : p ∈ ps → p.values[col]? = some v → P v
  ascending : buckets.Pairwise fun a b ↦ a.1.compare b.1 = .lt
  key {e : Literal × IdSet} : e ∈ buckets → P e.1 ∧ e.1.isNull = false
  ids {e : Literal × IdSet} : e ∈ buckets → e.2 ≠ [] ∧ e.2 = idsWhere col (·.same e.1) ps
  bucket {p : Partition} {v : Literal} : p ∈ ps → p.values[col]? = some v → v.isNull = false →
    ∃ e ∈ buckets, v.same e.1 = true

namespace Bucketed

variable {P : Literal → Prop} {col : Nat} {ps : List Partition} {buckets before after : Buckets}
  {v k : Literal} {ids : IdSet} {p : Partition}

theorem mono {Q : Literal → Prop} (h : Bucketed P col ps buckets) (hsub : ∀ v, P v → Q v) :
    Bucketed Q col ps buckets where
  stored hp hv := hsub _ (h.stored hp hv)
  ascending := h.ascending
  key he := ⟨hsub _ (h.key he).1, (h.key he).2⟩
  ids := h.ids
  bucket := h.bucket

theorem split (h : Bucketed P col ps buckets) (hP : OrderedOn P) (hv : P v) :
    ∃ before after, (∀ e ∈ before, v.compare e.1 = .gt) ∧ (∀ e ∈ after, v.compare e.1 = .lt) ∧
      (buckets = before ++ after ∨
        ∃ k ids, v.compare k = .eq ∧ buckets = before ++ (k, ids) :: after) :=
  exists_split hP hv (fun _ he ↦ (h.key he).1) h.ascending

/-- No partition has a value that no bucket has for a key. -/
theorem not_same (h : Bucketed P col ps buckets) (hP : OrderedOn P) (hv : P v)
    (hnull : v.isNull = false) (hmissing : ∀ e ∈ buckets, v.compare e.1 ≠ .eq) {q : Partition}
    {w : Literal} (hq : q ∈ ps) (hw : q.values[col]? = some w) : w.same v = false := by
  rw [← Bool.not_eq_true]
  intro hsame
  have hnull' : w.isNull = false := (isNull_eq_of_same hsame).trans hnull
  obtain ⟨e, he, hwe⟩ := h.bucket hq hw hnull'
  apply hmissing e he
  rw [← hP.congr_left (h.stored hq hw) hv (h.key he).1 (same_iff.mp hsame)]
  exact same_iff.mp hwe

/-- What a search finds are the partitions with the value, if there are any. -/
theorem bucket?_eq_some_iff (h : Bucketed P col ps buckets) (hP : OrderedOn P) (hv : P v)
    (hnull : v.isNull = false) :
    bucket? v buckets = some ids ↔ ids ≠ [] ∧ ids = idsWhere col (·.same v) ps := by
  obtain ⟨before, after, hbefore, hafter, rfl | ⟨k, ids', hk, rfl⟩⟩ := h.split hP hv
  · have hmissing := compare_ne_of_split hbefore hafter
    rw [bucket?_append hbefore, bucket?_of_lt hafter,
      idsWhere_eq_nil fun q hq w hw ↦ h.not_same hP hv hnull hmissing hq hw]
    constructor
    · intro hnone
      cases hnone
    · rintro ⟨hne, rfl⟩
      exact absurd rfl hne
  · have hmem : (k, ids') ∈ before ++ (k, ids') :: after := mem_middle.mpr (.inl rfl)
    obtain ⟨hne, hids⟩ := h.ids hmem
    have hcongr : idsWhere col (·.same k) ps = idsWhere col (·.same v) ps := by
      apply idsWhere_congr
      intro q hq w hw
      unfold same
      rw [hP.congr_right (h.stored hq hw) hv (h.key hmem).1 hk]
    rw [bucket?_append hbefore, bucket?_of_eq hk, ← hcongr, ← hids, Option.some.injEq]
    constructor
    · rintro rfl
      exact ⟨hne, rfl⟩
    · rintro ⟨_, rfl⟩
      rfl

theorem same_eq_false (h : v.compare k ≠ .eq) : v.same k = false := by
  rw [← Bool.not_eq_true, same_iff]
  exact h

/-- A null is in no bucket. -/
theorem not_same_of_null (h : Bucketed P col ps buckets) (hnull : v.isNull = true)
    {e : Literal × IdSet} (he : e ∈ buckets) : v.same e.1 = false := by
  rw [← Bool.not_eq_true]
  intro hsame
  have hnull' := isNull_eq_of_same hsame
  rw [hnull, (h.key he).2] at hnull'
  cases hnull'

/-- The buckets stay those of the old partitions wherever the new one has another value. -/
theorem ids_append (h : Bucketed P col ps buckets) (hp : p.values[col]? = some v)
    {e : Literal × IdSet} (he : e ∈ buckets) (hne : v.same e.1 = false) :
    e.2 ≠ [] ∧ e.2 = idsWhere col (·.same e.1) (ps ++ [p]) := by
  rw [idsWhere_append_of_false (·.same e.1) hp hne]
  exact h.ids he

theorem stored_append (h : Bucketed P col ps buckets) (hv : P v) (hp : p.values[col]? = some v)
    {q : Partition} {w : Literal} (hq : q ∈ ps ++ [p]) (hw : q.values[col]? = some w) : P w := by
  rcases List.mem_append.mp hq with hq | hq
  · exact h.stored hq hw
  · obtain rfl := List.mem_singleton.mp hq
    obtain rfl := Option.some.inj (hp.symm.trans hw)
    exact hv

theorem append_null (h : Bucketed P col ps buckets) (hv : P v) (hp : p.values[col]? = some v)
    (hnull : v.isNull = true) : Bucketed P col (ps ++ [p]) buckets where
  stored := h.stored_append hv hp
  ascending := h.ascending
  key := h.key
  ids he := h.ids_append hp he (h.not_same_of_null hnull he)
  bucket {q w} hq hw hn := by
    rcases List.mem_append.mp hq with hq | hq
    · exact h.bucket hq hw hn
    · obtain rfl := List.mem_singleton.mp hq
      obtain rfl := Option.some.inj (hp.symm.trans hw)
      rw [hnull] at hn
      cases hn

/-- A value without a bucket gets one in its place. -/
theorem append_new (h : Bucketed P col ps (before ++ after)) (hP : OrderedOn P) (hv : P v)
    (hnull : v.isNull = false) (hp : p.values[col]? = some v)
    (hbefore : ∀ e ∈ before, v.compare e.1 = .gt) (hafter : ∀ e ∈ after, v.compare e.1 = .lt) :
    Bucketed P col (ps ++ [p]) (before ++ (v, [p.id]) :: after) where
  stored := h.stored_append hv hp
  ascending := by
    obtain ⟨hbelow, habove, hacross⟩ := List.pairwise_append.mp h.ascending
    refine List.pairwise_append.mpr ⟨hbelow, List.pairwise_cons.mpr ⟨hafter, habove⟩, ?_⟩
    intro a ha b hb
    rcases List.mem_cons.mp hb with rfl | hb
    · exact Std.OrientedCmp.gt_iff_lt.mp (hbefore a ha)
    · exact hacross a ha b hb
  key {e} he := by
    rcases mem_middle.mp he with rfl | he
    · exact ⟨hv, hnull⟩
    · exact h.key he
  ids {e} he := by
    have hmissing := compare_ne_of_split hbefore hafter
    rcases mem_middle.mp he with rfl | he
    · rw [idsWhere_append_of_true (·.same v) hp same_self,
        idsWhere_eq_nil fun q hq w hw ↦ h.not_same hP hv hnull hmissing hq hw]
      exact ⟨List.cons_ne_nil _ _, rfl⟩
    · exact h.ids_append hp he (same_eq_false (hmissing e he))
  bucket {q w} hq hw hn := by
    rcases List.mem_append.mp hq with hq | hq
    · obtain ⟨e, he, hsame⟩ := h.bucket hq hw hn
      exact ⟨e, mem_middle.mpr (.inr he), hsame⟩
    · obtain rfl := List.mem_singleton.mp hq
      obtain rfl := Option.some.inj (hp.symm.trans hw)
      exact ⟨_, mem_middle.mpr (.inl rfl), same_self⟩

/-- A value with a bucket goes to its end. -/
theorem append_old (h : Bucketed P col ps (before ++ (k, ids) :: after)) (hv : P v)
    (hp : p.values[col]? = some v) (hfresh : ∀ q ∈ ps, q.id.val < p.id.val)
    (hbefore : ∀ e ∈ before, v.compare e.1 = .gt) (hk : v.compare k = .eq)
    (hafter : ∀ e ∈ after, v.compare e.1 = .lt) :
    Bucketed P col (ps ++ [p]) (before ++ (k, ids.insert p.id) :: after) := by
  have hsame : v.same k = true := same_iff.mpr hk
  have hmem : (k, ids) ∈ before ++ (k, ids) :: after := mem_middle.mpr (.inl rfl)
  have hkey := h.key hmem
  have hids : ids = idsWhere col (·.same k) ps := (h.ids hmem).2
  have hinsert : ids.insert p.id = ids ++ [p.id] := by
    apply IdSet.insert_of_lt
    intro j hj
    rw [hids] at hj
    obtain ⟨q, hq, rfl, _⟩ := mem_idsWhere.mp hj
    exact hfresh q hq
  refine ⟨h.stored_append hv hp, ?_, fun {e} he ↦ ?_, fun {e} he ↦ ?_, fun {q w} hq hw hn ↦ ?_⟩
  · simpa [List.pairwise_append] using h.ascending
  · rcases mem_middle.mp he with rfl | he
    · exact hkey
    · exact h.key (mem_middle.mpr (.inr he))
  · rcases mem_middle.mp he with rfl | he
    · rw [hinsert, idsWhere_append_of_true (·.same k) hp hsame, ← hids]
      exact ⟨List.append_ne_nil_of_right_ne_nil _ (List.cons_ne_nil _ _), rfl⟩
    · have hne := compare_ne_of_split hbefore hafter e he
      exact h.ids_append hp (mem_middle.mpr (.inr he)) (same_eq_false hne)
  · have hkey : ∃ e ∈ before ++ (k, ids) :: after, w.same e.1 = true := by
      rcases List.mem_append.mp hq with hq | hq
      · exact h.bucket hq hw hn
      · obtain rfl := List.mem_singleton.mp hq
        obtain rfl := Option.some.inj (hp.symm.trans hw)
        exact ⟨_, hmem, hsame⟩
    obtain ⟨e, he, hwe⟩ := hkey
    rcases mem_middle.mp he with rfl | he
    · exact ⟨_, mem_middle.mpr (.inl rfl), hwe⟩
    · exact ⟨e, mem_middle.mpr (.inr he), hwe⟩

theorem insertKey (h : Bucketed P col ps buckets) (hP : OrderedOn P) (hv : P v)
    (hnull : v.isNull = false) (hp : p.values[col]? = some v)
    (hfresh : ∀ q ∈ ps, q.id.val < p.id.val) :
    Bucketed P col (ps ++ [p]) (KeyColumn.insertKey v p.id buckets) := by
  obtain ⟨before, after, hbefore, hafter, rfl | ⟨k, ids, hk, rfl⟩⟩ := h.split hP hv
  · rw [insertKey_append hbefore, insertKey_of_lt hafter]
    exact h.append_new hP hv hnull hp hbefore hafter
  · rw [insertKey_append hbefore, insertKey_of_eq hk]
    exact h.append_old hv hp hfresh hbefore hk hafter

section Without

variable (hnodup : (ps.map (·.id)).Nodup) (hmem : p ∈ ps)

include hnodup hmem

/-- The buckets stay the same wherever the partition has another value. -/
theorem ids_without (h : Bucketed P col ps buckets) (hp : p.values[col]? = some v)
    {e : Literal × IdSet} (he : e ∈ buckets) (hne : v.same e.1 = false) :
    e.2 ≠ [] ∧ e.2 = idsWhere col (·.same e.1) (ps.filter (·.id ≠ p.id)) := by
  rw [idsWhere_without_of_false (·.same e.1) hnodup hmem hp hne]
  exact h.ids he

theorem without_null (h : Bucketed P col ps buckets) (hp : p.values[col]? = some v)
    (hnull : v.isNull = true) : Bucketed P col (ps.filter (·.id ≠ p.id)) buckets where
  stored hq := h.stored (List.mem_filter.mp hq).1
  ascending := h.ascending
  key := h.key
  ids he := h.ids_without hnodup hmem hp he (h.not_same_of_null hnull he)
  bucket hq := h.bucket (List.mem_filter.mp hq).1

omit hnodup hmem in
/-- The other partitions stay in their buckets. -/
theorem bucket_without (h : Bucketed P col ps buckets) {q : Partition} {w : Literal}
    (hq : q ∈ ps.filter (·.id ≠ p.id)) (hw : q.values[col]? = some w) (hn : w.isNull = false) :
    ∃ e ∈ buckets, w.same e.1 = true ∧ q.id ∈ e.2.erase p.id := by
  obtain ⟨hq, hid⟩ := List.mem_filter.mp hq
  obtain ⟨e, he, hwe⟩ := h.bucket hq hw hn
  refine ⟨e, he, hwe, ?_⟩
  rw [List.mem_erase_of_ne (of_decide_eq_true hid), (h.ids he).2]
  exact mem_idsWhere.mpr ⟨q, hq, rfl, w, hw, hwe⟩

/-- With its last partition a bucket goes. -/
theorem without_last (h : Bucketed P col ps (before ++ (k, ids) :: after))
    (hp : p.values[col]? = some v) (hbefore : ∀ e ∈ before, v.compare e.1 = .gt)
    (hafter : ∀ e ∈ after, v.compare e.1 = .lt) (hempty : ids.erase p.id = []) :
    Bucketed P col (ps.filter (·.id ≠ p.id)) (before ++ after) where
  stored hq := h.stored (List.mem_filter.mp hq).1
  ascending := h.ascending.sublist ((List.sublist_cons_self _ _).append_left _)
  key he := h.key (mem_middle.mpr (.inr he))
  ids {e} he := by
    have hne := compare_ne_of_split hbefore hafter e he
    exact h.ids_without hnodup hmem hp (mem_middle.mpr (.inr he)) (same_eq_false hne)
  bucket {q w} hq hw hn := by
    obtain ⟨e, he, hwe, hid⟩ := h.bucket_without hq hw hn
    rcases mem_middle.mp he with rfl | he
    · rw [hempty] at hid
      cases hid
    · exact ⟨e, he, hwe⟩

theorem without_one (h : Bucketed P col ps (before ++ (k, ids) :: after))
    (hp : p.values[col]? = some v) (hbefore : ∀ e ∈ before, v.compare e.1 = .gt)
    (hafter : ∀ e ∈ after, v.compare e.1 = .lt) (hne : ids.erase p.id ≠ []) :
    Bucketed P col (ps.filter (·.id ≠ p.id)) (before ++ (k, ids.erase p.id) :: after) := by
  have hkmem : (k, ids) ∈ before ++ (k, ids) :: after := mem_middle.mpr (.inl rfl)
  have hkey := h.key hkmem
  have hids : ids = idsWhere col (·.same k) ps := (h.ids hkmem).2
  refine ⟨fun hq ↦ h.stored (List.mem_filter.mp hq).1, ?_, fun {e} he ↦ ?_, fun {e} he ↦ ?_,
    fun {q w} hq hw hn ↦ ?_⟩
  · simpa [List.pairwise_append] using h.ascending
  · rcases mem_middle.mp he with rfl | he
    · exact hkey
    · exact h.key (mem_middle.mpr (.inr he))
  · rcases mem_middle.mp he with rfl | he
    · rw [idsWhere_without hnodup, ← hids]
      exact ⟨hne, rfl⟩
    · have hne' := compare_ne_of_split hbefore hafter e he
      exact h.ids_without hnodup hmem hp (mem_middle.mpr (.inr he)) (same_eq_false hne')
  · obtain ⟨e, he, hwe, _⟩ := h.bucket_without hq hw hn
    rcases mem_middle.mp he with rfl | he
    · exact ⟨_, mem_middle.mpr (.inl rfl), hwe⟩
    · exact ⟨e, mem_middle.mpr (.inr he), hwe⟩

theorem eraseKey (h : Bucketed P col ps buckets) (hP : OrderedOn P)
    (hp : p.values[col]? = some v) (hnull : v.isNull = false) :
    Bucketed P col (ps.filter (·.id ≠ p.id)) (KeyColumn.eraseKey v p.id buckets) := by
  obtain ⟨e, he, hsame⟩ := h.bucket hmem hp hnull
  obtain ⟨before, after, hbefore, hafter, rfl | ⟨k, ids, hk, rfl⟩⟩ :=
    h.split hP (h.stored hmem hp)
  · exact absurd (same_iff.mp hsame) (compare_ne_of_split hbefore hafter e he)
  · rw [eraseKey_append hbefore, eraseKey_of_eq hk]
    split
    · rename_i hempty
      exact h.without_last hnodup hmem hp hbefore hafter (List.isEmpty_iff.mp hempty)
    · rename_i hne
      exact h.without_one hnodup hmem hp hbefore hafter fun hnil ↦ hne (List.isEmpty_iff.mpr hnil)

end Without

theorem add {c : KeyColumn} (h : Bucketed P col ps c.buckets) (hP : OrderedOn P) (hv : P v)
    (hp : p.values[col]? = some v) (hfresh : ∀ q ∈ ps, q.id.val < p.id.val) (s : ColumnStats) :
    Bucketed P col (ps ++ [p]) (c.add p.id v s).1.buckets := by
  unfold KeyColumn.add
  split
  · rename_i hnull
    exact h.append_null hv hp hnull
  · rename_i hnull
    exact h.insertKey hP hv (Bool.not_eq_true _ ▸ hnull) hp hfresh

theorem remove {c : KeyColumn} (h : Bucketed P col ps c.buckets) (hP : OrderedOn P)
    (hnodup : (ps.map (·.id)).Nodup) (hmem : p ∈ ps) (hp : p.values[col]? = some v)
    (s : ColumnStats) :
    Bucketed P col (ps.filter (·.id ≠ p.id)) (c.remove p.id v s).1.buckets := by
  unfold KeyColumn.remove
  split
  · rename_i hnull
    have hkept := h.without_null hnodup hmem hp hnull
    split
    · exact hkept
    · exact hkept
  · rename_i hnull
    have hnull' : v.isNull = false := by simpa using hnull
    have hid : p.id ∈ idsWhere col (·.same v) ps :=
      mem_idsWhere.mpr ⟨p, hmem, rfl, v, hp, same_self⟩
    have hbucket : bucket? v c.buckets = some (idsWhere col (·.same v) ps) :=
      (h.bucket?_eq_some_iff hP (h.stored hmem hp) hnull').mpr ⟨List.ne_nil_of_mem hid, rfl⟩
    rw [hbucket]
    exact h.eraseKey hnodup hmem hP hp hnull'

end Bucketed

theorem length_insertKey (v : Literal) (id : PartitionId) (buckets : Buckets) :
    (insertKey v id buckets).length =
      buckets.length + if (bucket? v buckets).isNone then 1 else 0 := by
  induction buckets with
  | nil => rfl
  | cons e rest ih =>
    rw [insertKey, bucket?]
    cases v.compare e.1 with
    | lt => rfl
    | eq => rfl
    | gt =>
      simp only [List.length_cons, ih]
      omega

theorem length_eraseKey {v : Literal} {buckets : Buckets} {ids : IdSet} (id : PartitionId)
    (h : bucket? v buckets = some ids) :
    (eraseKey v id buckets).length + (if (ids.erase id).isEmpty then 1 else 0) =
      buckets.length := by
  induction buckets with
  | nil => cases h
  | cons e rest ih =>
    rw [bucket?] at h
    rw [eraseKey]
    cases hcmp : v.compare e.1 with
    | lt =>
      rw [hcmp] at h
      cases h
    | eq =>
      rw [hcmp] at h
      obtain rfl := Option.some.inj h
      by_cases hempty : (e.2.erase id).isEmpty
      · simp only [hempty, if_true, List.length_cons]
      · simp only [hempty, List.length_cons]
        rfl
    | gt =>
      rw [hcmp] at h
      have hrest := ih h
      simp only [List.length_cons]
      omega

/-- The nulls of the index are those of a column of the partitions, and its statistics are the
numbers of nulls and of distinct values. -/
structure Counted (col : Nat) (ps : List Partition) (c : KeyColumn) (s : ColumnStats) : Prop where
  nulls : c.nulls = idsWhere col (·.isNull) ps
  nullCount : s.nulls = c.nulls.length
  distinct : s.distinct = c.buckets.length + if c.nulls.isEmpty then 0 else 1

namespace Counted

variable {col : Nat} {ps : List Partition} {c : KeyColumn} {s : ColumnStats} {p : Partition}
  {v : Literal}

theorem add (h : Counted col ps c s) (hp : p.values[col]? = some v)
    (hfresh : ∀ q ∈ ps, q.id.val < p.id.val) :
    Counted col (ps ++ [p]) (c.add p.id v s).1 (c.add p.id v s).2 := by
  obtain ⟨hnulls, hcount, hdistinct⟩ := h
  unfold KeyColumn.add
  split
  · rename_i hnull
    have hinsert : c.nulls.insert p.id = c.nulls ++ [p.id] := by
      apply IdSet.insert_of_lt
      intro j hj
      rw [hnulls] at hj
      obtain ⟨q, hq, rfl, _⟩ := mem_idsWhere.mp hj
      exact hfresh q hq
    simp only [hinsert]
    refine ⟨?_, ?_, ?_⟩
    · rw [idsWhere_append_of_true _ hp hnull, hnulls]
    · rw [hcount, List.length_append]
      rfl
    · rw [hdistinct]
      cases c.nulls <;> simp
  · rename_i hnull
    have hnull' : v.isNull = false := by simpa using hnull
    refine ⟨?_, ?_, ?_⟩
    · rw [idsWhere_append_of_false _ hp hnull']
      exact hnulls
    · split <;> exact hcount
    · simp only [length_insertKey]
      split
      · simp only [hdistinct]
        omega
      · exact hdistinct

theorem remove (h : Counted col ps c s) (hnodup : (ps.map (·.id)).Nodup) (hmem : p ∈ ps)
    (hp : p.values[col]? = some v) :
    Counted col (ps.filter (·.id ≠ p.id)) (c.remove p.id v s).1 (c.remove p.id v s).2 := by
  obtain ⟨hnulls, hcount, hdistinct⟩ := h
  unfold KeyColumn.remove
  split
  · rename_i hnull
    have hid : p.id ∈ c.nulls := by
      rw [hnulls]
      exact mem_idsWhere.mpr ⟨p, hmem, rfl, v, hp, hnull⟩
    have hlength : (c.nulls.erase p.id).length + 1 = c.nulls.length := by
      rw [List.length_erase_of_mem hid]
      have := List.length_pos_of_mem hid
      omega
    have hne : c.nulls.isEmpty = false := by
      rw [List.isEmpty_eq_false_iff]
      exact List.ne_nil_of_mem hid
    rw [if_pos (List.contains_iff_mem.mpr hid)]
    refine ⟨?_, ?_, ?_⟩
    · rw [idsWhere_without hnodup, ← hnulls]
    · simp only [hcount]
      omega
    · simp only [hdistinct, hne]
      split <;> simp_all
  · rename_i hnull
    have hnull' : v.isNull = false := by simpa using hnull
    have hnulls' : c.nulls = idsWhere col (·.isNull) (ps.filter (·.id ≠ p.id)) := by
      rw [idsWhere_without_of_false _ hnodup hmem hp hnull']
      exact hnulls
    split
    · exact ⟨hnulls', hcount, hdistinct⟩
    · rename_i ids hbucket
      have hlength := length_eraseKey p.id hbucket
      refine ⟨hnulls', ?_, ?_⟩
      · split <;> exact hcount
      · split
        · rename_i hempty
          rw [if_pos hempty] at hlength
          simp only [hdistinct]
          omega
        · rename_i hempty
          rw [if_neg hempty] at hlength
          simp only [hdistinct]
          omega

end Counted

end KeyColumn

end QueryPlanning
