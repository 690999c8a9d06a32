import QueryPlanning.Proofs.Catalog.IndexConsistency
import QueryPlanning.Proofs.Catalog.RegistryLookup

/-!
# Partitions by directory name

Partitions may share a directory name, and a table remembers one of them for each name: the one that
came in last. When any partition of a name goes, the name is forgotten, also where others of it
stay. So what is found under a name is right, but a name that has partitions may lead to none.
-/

namespace QueryPlanning

open Relation (ReflTransGen)

namespace Table

variable {t t' : Table} {p q : Partition} {name : String} {ops : List TableOp}

/-- The partitions of a directory name. -/
def named (t : Table) (name : String) : List Partition :=
  t.partitions.filter fun p ↦ t.directoryOf p = name

/-- The text for null stays as it is while there are partitions, and with it all their names. -/
def KeepsNames (t : Table) (ops : List TableOp) : Prop :=
  ∀ done op, done ++ [op] <+: ops → (t.run done).partitions ≠ [] →
    (op.apply (t.run done)).nullKey = (t.run done).nullKey

/-- A partition came in under a name with some call, and since then the partitions of the name have
stayed the same. -/
def LastNamed (t : Table) (ops : List TableOp) (name : String) (p : Partition) : Prop :=
  ∃ done op later, ops = done ++ op :: later ∧ p ∉ (t.run done).named name ∧
    p ∈ (t.run (done ++ [op])).named name ∧
    ∀ more, more <+: later →
      (t.run (done ++ op :: more)).named name = (t.run (done ++ [op])).named name

/-- No call takes a partition of a name away and leaves only others that were there before. -/
def LeavesNone (t : Table) (ops : List TableOp) (name : String) : Prop :=
  ∀ done op, done ++ [op] <+: ops →
    (∃ p ∈ (t.run done).named name, p ∉ (t.run (done ++ [op])).named name) →
    (∀ p ∈ (t.run (done ++ [op])).named name, p ∈ (t.run done).named name) →
    (t.run (done ++ [op])).named name = []

/-- Each name leads to a partition of that name. -/
def Filed (t : Table) : Prop :=
  ∀ name id, t.directories.lookup name = some id →
    ∃ p ∈ t.partitions, p.id = id ∧ t.directoryOf p = name

theorem lookup_setEntry {α : Type} (key : String) (value : α) (entries : List (String × α)) :
    (setEntry key value entries).lookup name =
      if name = key then some value else entries.lookup name := by
  induction entries with
  | nil => exact lookup_cons_ite ..
  | cons e rest ih =>
    unfold setEntry
    by_cases hkey : e.1 = key
    · rw [if_pos hkey, lookup_cons_ite, lookup_cons_ite, hkey]
      split <;> rfl
    · rw [if_neg hkey, lookup_cons_ite, lookup_cons_ite, ih]
      by_cases hname : name = e.1
      · rw [if_pos hname, if_pos hname, if_neg (hname ▸ hkey)]
      · rw [if_neg hname, if_neg hname]

theorem lookup_filter_ne {α : Type} (key : String) (entries : List (String × α)) :
    (entries.filter (·.1 ≠ key)).lookup name =
      if name = key then none else entries.lookup name := by
  induction entries with
  | nil =>
    rw [List.filter_nil, List.lookup_nil]
    exact (ite_self none).symm
  | cons e rest ih =>
    by_cases hkey : e.1 = key
    · rw [List.filter_cons_of_neg (by simpa using hkey), ih, lookup_cons_ite, hkey]
      split <;> rfl
    · rw [List.filter_cons_of_pos (by simpa using hkey), lookup_cons_ite, lookup_cons_ite, ih]
      by_cases hname : name = e.1
      · rw [if_pos hname, if_pos hname, if_neg (hname ▸ hkey)]
      · rw [if_neg hname, if_neg hname]

theorem directory_congr {columns columns' : List Column} (nullKey : String) (p : Partition)
    (h : columns'.map (·.name) = columns.map (·.name)) :
    p.directory columns' nullKey = p.directory columns nullKey := by
  have hmap (columns : List Column) :
      List.zipWith (fun c v ↦ c.name ++ "=" ++ v.keyText nullKey) columns p.values =
        List.zipWith (fun n v ↦ n ++ "=" ++ v.keyText nullKey) (columns.map (·.name)) p.values := by
    rw [List.zipWith_map_left]
  unfold Partition.directory
  rw [hmap, hmap, h]

theorem directory_withStats (t : Table) (stats : List ColumnStats) (p : Partition) :
    p.directory ((withStats t.columns stats).take t.clustering) t.nullKey = t.directoryOf p := by
  apply directory_congr
  rw [clusteringColumns, List.map_take, List.map_take, map_withStats fun _ _ ↦ rfl]

@[simp]
theorem directoryOf_insert : (t.insert p).directoryOf q = t.directoryOf q :=
  t.directory_withStats (t.index.add p.id p.values t.stats).2 q

@[simp]
theorem directoryOf_remove : (t.remove p).directoryOf q = t.directoryOf q :=
  t.directory_withStats (t.index.remove p.id p.values t.stats).2 q

theorem mem_named : p ∈ t.named name ↔ p ∈ t.partitions ∧ t.directoryOf p = name := by
  rw [named, List.mem_filter, decide_eq_true_iff]

theorem named_insert : (t.insert p).named name =
    t.named name ++ if t.directoryOf p = name then [p] else [] := by
  have hfilter : (t.insert p).named name =
      (t.partitions ++ [p]).filter fun q ↦ t.directoryOf q = name := by
    unfold named
    congr 1
    funext q
    rw [directoryOf_insert]
  rw [hfilter, List.filter_append, named]
  congr 1
  by_cases h : t.directoryOf p = name
  · rw [if_pos h, List.filter_cons_of_pos (by simpa using h), List.filter_nil]
  · rw [if_neg h, List.filter_cons_of_neg (by simpa using h), List.filter_nil]

theorem named_remove : (t.remove p).named name = (t.named name).filter (·.id ≠ p.id) := by
  have hfilter : (t.remove p).named name =
      (t.partitions.filter (·.id ≠ p.id)).filter fun q ↦ t.directoryOf q = name := by
    unfold named
    congr 1
    funext q
    rw [directoryOf_remove]
  rw [hfilter, named, List.filter_filter, List.filter_filter]
  congr 1
  funext q
  exact Bool.and_comm ..

theorem Consistent.ofDirectory?_eq (h : t.Consistent) (hp : p ∈ t.partitions)
    (hlookup : t.directories.lookup name = some p.id) : t.ofDirectory? name = some p := by
  rw [ofDirectory?, hlookup]
  exact partition?_of_mem h.nodup hp

theorem ofDirectory?_eq_none (hlookup : t.directories.lookup name = none) :
    t.ofDirectory? name = none := by
  rw [ofDirectory?, hlookup]
  rfl

/-- Under a name a partition is found if and only if there is an entry. -/
theorem Filed.cases (h : t.Filed) (hc : t.Consistent) (name : String) :
    (t.directories.lookup name = none ∧ t.ofDirectory? name = none) ∨
      ∃ p ∈ t.named name, t.directories.lookup name = some p.id ∧ t.ofDirectory? name = some p := by
  cases hlookup : t.directories.lookup name with
  | none => exact .inl ⟨rfl, ofDirectory?_eq_none hlookup⟩
  | some id =>
    obtain ⟨p, hp, rfl, hname⟩ := h name id hlookup
    exact .inr ⟨p, mem_named.mpr ⟨hp, hname⟩, rfl, hc.ofDirectory?_eq hp hlookup⟩

theorem Filed.mem_named (h : t.Filed) (hc : t.Consistent) (hp : t.ofDirectory? name = some p) :
    p ∈ t.named name := by
  rcases h.cases hc name with ⟨-, hnone⟩ | ⟨q, hq, -, hsome⟩
  · rw [hnone] at hp
    cases hp
  · rw [hsome] at hp
    cases hp
    exact hq

/-! ## What a change does to a name -/

/-- A name keeps its partitions and its entry. -/
structure Kept (name : String) (t t' : Table) : Prop where
  named : t'.named name = t.named name
  found : t'.ofDirectory? name = t.ofDirectory? name

/-- A name has a partition more, which is the one that is found. -/
structure Gained (name : String) (p : Partition) (t t' : Table) : Prop where
  fresh : p ∉ t.named name
  mem : p ∈ t'.named name
  others {q : Partition} : q ∈ t'.named name → q = p ∨ q ∈ t.named name
  found : t'.ofDirectory? name = some p

/-- A name has lost partitions, and leads to none of those that it still has. -/
structure Lost (name : String) (t t' : Table) : Prop where
  lost : ∃ p ∈ t.named name, p ∉ t'.named name
  subset {q : Partition} : q ∈ t'.named name → q ∈ t.named name
  found : t'.ofDirectory? name = none

theorem Kept.trans {t₁ : Table} (h : Kept name t t₁) (h' : Kept name t₁ t') : Kept name t t' :=
  ⟨h'.named.trans h.named, h'.found.trans h.found⟩

theorem Kept.lost {t₁ : Table} (h : Kept name t t₁) (h' : Lost name t₁ t') : Lost name t t' := by
  obtain ⟨hlost, hsubset, hfound⟩ := h'
  rw [h.named] at hlost
  exact ⟨hlost, fun hq ↦ h.named ▸ hsubset hq, hfound⟩

theorem Lost.trans {t₁ : Table} (h : Lost name t t₁) (h' : Kept name t₁ t' ∨ Lost name t₁ t') :
    Lost name t t' := by
  have hsubset {q : Partition} (hq : q ∈ t'.named name) : q ∈ t₁.named name := by
    rcases h' with hkept | hlost
    · exact hkept.named ▸ hq
    · exact hlost.subset hq
  obtain ⟨p, hp, hgone⟩ := h.lost
  refine ⟨⟨p, hp, fun hmem ↦ hgone (hsubset hmem)⟩, fun hq ↦ h.subset (hsubset hq), ?_⟩
  rcases h' with hkept | hlost
  · rw [hkept.found, h.found]
  · exact hlost.found

theorem Filed.insert (h : t.Filed) : (t.insert p).Filed := by
  intro name id hlookup
  have hentry : (t.insert p).directories.lookup name =
      if name = t.directoryOf p then some p.id else t.directories.lookup name := lookup_setEntry ..
  rw [hentry] at hlookup
  by_cases hname : name = t.directoryOf p
  · rw [if_pos hname] at hlookup
    cases hlookup
    exact ⟨p, mem_insert, rfl, by rw [directoryOf_insert, hname]⟩
  · rw [if_neg hname] at hlookup
    obtain ⟨q, hq, hid, hdirectory⟩ := h name id hlookup
    exact ⟨q, List.mem_append_left _ hq, hid, by rw [directoryOf_insert, hdirectory]⟩

theorem Consistent.not_mem_named (h : t.Consistent) (hid : t.highest < p.id.val) :
    p ∉ t.named name := by
  intro hp
  exact absurd (h.inRange (Table.mem_named.mp hp).1).2 (Int.not_le.mpr hid)

theorem Filed.course_insert (h : t.Filed) (hc : t.Consistent) (hid : t.highest < p.id.val)
    (hvalues : p.values.length = t.clustering) (name : String) :
    Kept name t (t.insert p) ∨ Gained name p t (t.insert p) := by
  have hc' := hc.insert hid hvalues
  have hentry : (t.insert p).directories.lookup name =
      if name = t.directoryOf p then some p.id else t.directories.lookup name := lookup_setEntry ..
  have hnamed : (t.insert p).named name =
      t.named name ++ if t.directoryOf p = name then [p] else [] := named_insert
  by_cases hname : name = t.directoryOf p
  · rw [if_pos hname] at hentry
    rw [if_pos hname.symm] at hnamed
    refine .inr ⟨hc.not_mem_named hid, ?_, fun {q} hq ↦ ?_, hc'.ofDirectory?_eq mem_insert hentry⟩
    · rw [hnamed]
      exact List.mem_append_right _ List.mem_cons_self
    · rw [hnamed] at hq
      exact (List.mem_append.mp hq).symm.imp_left List.mem_singleton.mp
  · rw [if_neg hname] at hentry
    rw [if_neg (Ne.symm hname), List.append_nil] at hnamed
    refine .inl ⟨hnamed, ?_⟩
    rcases h.cases hc name with ⟨hlookup, hnone⟩ | ⟨q, hq, hlookup, hsome⟩
    · rw [hnone]
      exact ofDirectory?_eq_none (hentry.trans hlookup)
    · rw [hsome]
      apply hc'.ofDirectory?_eq _ (hentry.trans hlookup)
      exact List.mem_append_left _ (Table.mem_named.mp hq).1

/-- A change that adds nothing. The text for null is as before if there are partitions. -/
inductive Clear : Table → Table → Prop
  | remove {t : Table} {p : Partition} : p ∈ t.partitions → Clear t (t.remove p)
  | reset {t : Table} : Clear t t.reset
  | idle {t : Table} {default : Partition} {ids : IdSource .partition}
      {nullKey nullColumn : String} {hosts : Hosts} {rows : Int} {cached : Bool} :
      default.id = t.default.id → (t.partitions ≠ [] → nullKey = t.nullKey) →
      Clear t { t with default, ids, nullKey, nullColumn, hosts, rows, cached }

theorem Clear.change {allowed : Partition → Prop} (h : Clear t t') : Change allowed t t' := by
  cases h with
  | remove hp => exact .remove hp
  | reset => exact .reset
  | idle hdefault => exact .other rfl rfl rfl rfl rfl rfl rfl hdefault

theorem Filed.of_lookup_eq_none (h : ∀ name, t.directories.lookup name = none) : t.Filed := by
  intro name id hlookup
  rw [h] at hlookup
  cases hlookup

theorem Filed.remove (h : t.Filed) (hc : t.Consistent) (hp : p ∈ t.partitions) :
    (t.remove p).Filed := by
  intro name id hlookup
  have hentry : (t.remove p).directories.lookup name =
      if name = t.directoryOf p then none else t.directories.lookup name := lookup_filter_ne ..
  rw [hentry] at hlookup
  by_cases hname : name = t.directoryOf p
  · rw [if_pos hname] at hlookup
    cases hlookup
  · rw [if_neg hname] at hlookup
    obtain ⟨q, hq, hid, hdirectory⟩ := h name id hlookup
    refine ⟨q, List.mem_filter.mpr ⟨hq, ?_⟩, hid, by rw [directoryOf_remove, hdirectory]⟩
    apply decide_eq_true
    intro heq
    apply hname
    rw [← hdirectory, Partition.eq_of_id hc.nodup hp hq heq]

theorem Filed.course_remove (h : t.Filed) (hc : t.Consistent) (hp : p ∈ t.partitions)
    (name : String) : Kept name t (t.remove p) ∨ Lost name t (t.remove p) := by
  have hc' := hc.remove hp
  have hentry : (t.remove p).directories.lookup name =
      if name = t.directoryOf p then none else t.directories.lookup name := lookup_filter_ne ..
  have hnamed : (t.remove p).named name = (t.named name).filter (·.id ≠ p.id) := named_remove
  by_cases hname : name = t.directoryOf p
  · rw [if_pos hname] at hentry
    refine .inr ⟨⟨p, Table.mem_named.mpr ⟨hp, hname.symm⟩, ?_⟩, fun {q} hq ↦ ?_,
      ofDirectory?_eq_none hentry⟩
    · rw [hnamed]
      intro hmem
      exact absurd rfl (of_decide_eq_true (List.mem_filter.mp hmem).2)
    · rw [hnamed] at hq
      exact (List.mem_filter.mp hq).1
  · rw [if_neg hname] at hentry
    have hother {q : Partition} (hq : q ∈ t.named name) : q.id ≠ p.id := by
      obtain ⟨hq, hdirectory⟩ := Table.mem_named.mp hq
      intro heq
      apply hname
      rw [← hdirectory, Partition.eq_of_id hc.nodup hp hq heq]
    refine .inl ⟨?_, ?_⟩
    · rw [hnamed]
      apply List.filter_eq_self.mpr
      intro q hq
      exact decide_eq_true (hother hq)
    · rcases h.cases hc name with ⟨hlookup, hnone⟩ | ⟨q, hq, hlookup, hsome⟩
      · rw [hnone]
        exact ofDirectory?_eq_none (hentry.trans hlookup)
      · rw [hsome]
        apply hc'.ofDirectory?_eq _ (hentry.trans hlookup)
        exact List.mem_filter.mpr ⟨(Table.mem_named.mp hq).1, decide_eq_true (hother hq)⟩

theorem Filed.course_reset (h : t.Filed) (hc : t.Consistent) (name : String) :
    Kept name t t.reset ∨ Lost name t t.reset := by
  have hnone : t.reset.ofDirectory? name = none := rfl
  have hnamed : t.reset.named name = [] := rfl
  cases hlist : t.named name with
  | nil =>
    refine .inl ⟨hnamed.trans hlist.symm, ?_⟩
    rcases h.cases hc name with ⟨-, hbefore⟩ | ⟨q, hq, -, -⟩
    · rw [hnone, hbefore]
    · rw [hlist] at hq
      cases hq
  | cons p rest =>
    have hp : p ∈ t.named name := hlist ▸ List.mem_cons_self
    refine .inr ⟨⟨p, hp, ?_⟩, fun {q} hq ↦ ?_, hnone⟩
    · rw [hnamed]
      exact List.not_mem_nil
    · rw [hnamed] at hq
      cases hq

theorem Filed.lookup_eq_none (h : t.Filed) (hempty : t.partitions = []) (name : String) :
    t.directories.lookup name = none := by
  apply Option.eq_none_iff_forall_ne_some.mpr
  intro id hlookup
  obtain ⟨p, hp, -⟩ := h name id hlookup
  rw [hempty] at hp
  cases hp

theorem Filed.clear (h : t.Filed) (hc : t.Consistent) (hclear : Clear t t') (name : String) :
    t'.Filed ∧ (Kept name t t' ∨ Lost name t t') := by
  cases hclear with
  | remove hp => exact ⟨h.remove hc hp, h.course_remove hc hp name⟩
  | reset => exact ⟨.of_lookup_eq_none fun _ ↦ rfl, h.course_reset hc name⟩
  | idle _ hkey =>
    by_cases hempty : t.partitions = []
    · -- Without partitions there are no names that could change with the text for null.
      have hlookup := h.lookup_eq_none hempty
      refine ⟨.of_lookup_eq_none hlookup, .inl ⟨?_, ?_⟩⟩
      · unfold named
        rw [hempty, List.filter_nil, List.filter_nil]
      · rw [ofDirectory?_eq_none (hlookup name)]
        exact ofDirectory?_eq_none (hlookup name)
    · obtain rfl := hkey hempty
      exact ⟨h, .inl ⟨rfl, rfl⟩⟩

theorem Filed.clears (h : t.Filed) (hc : t.Consistent) (hclears : ReflTransGen Clear t t')
    (name : String) : t'.Filed ∧ t'.Consistent ∧ (Kept name t t' ∨ Lost name t t') := by
  induction hclears with
  | refl => exact ⟨h, hc, .inl ⟨rfl, rfl⟩⟩
  | tail _ hclear ih =>
    obtain ⟨hfiled, hconsistent, hbefore⟩ := ih
    obtain ⟨hfiled', hafter⟩ := hfiled.clear hconsistent hclear name
    have hchange : Change (fun _ ↦ True) _ _ := hclear.change
    refine ⟨hfiled', hconsistent.change hchange, ?_⟩
    rcases hbefore with hkept | hlost
    · exact hafter.imp hkept.trans hkept.lost
    · exact .inr (hlost.trans hafter)

/-- Partitions are taken away, and then one may come in. -/
def Shape (t t' : Table) : Prop :=
  ∃ t₁, ReflTransGen Clear t t₁ ∧ (t' = t₁ ∨ ∃ p, t₁.highest < p.id.val ∧
    p.values.length = t₁.clustering ∧ t' = t₁.insert p)

theorem clearing_clear : Clearing Clear where
  remove := .remove
  reset := .reset
  setDefault := .idle rfl fun _ ↦ rfl
  nextId := .idle rfl fun _ ↦ rfl

theorem apply_shape (t : Table) (op : TableOp)
    (hkey : t.partitions ≠ [] → (op.apply t).nullKey = t.nullKey) : Shape t (op.apply t) := by
  have hreaches : Reaches Clear t (op.apply t) := by
    apply clearing_clear.apply
    rintro nullKey nullColumn hosts rows cached rfl
    exact .idle rfl hkey
  obtain ⟨t₁, hclears, heq | ⟨q, hid, hcount, -, heq⟩⟩ := hreaches
  · exact ⟨t₁, hclears, .inl heq⟩
  · exact ⟨t₁, hclears, .inr ⟨q, hid, hcount, heq⟩⟩

theorem Clear.highest (h : Clear t t') : t'.highest = t.highest := by
  cases h <;> rfl

theorem clears_highest (h : ReflTransGen Clear t t') : t'.highest = t.highest := by
  induction h with
  | refl => rfl
  | tail _ hclear ih => exact hclear.highest.trans ih

/-- What a call does to a name. -/
theorem Filed.course (h : t.Filed) (hc : t.Consistent) (hshape : Shape t t') (name : String) :
    t'.Filed ∧ (Kept name t t' ∨ Lost name t t' ∨ ∃ p, Gained name p t t') := by
  obtain ⟨t₁, hclears, rfl | ⟨p, hid, hvalues, rfl⟩⟩ := hshape
  · obtain ⟨hfiled, -, hcourse⟩ := h.clears hc hclears name
    exact ⟨hfiled, hcourse.imp_right .inl⟩
  · obtain ⟨hfiled, hconsistent, hbefore⟩ := h.clears hc hclears name
    refine ⟨hfiled.insert, ?_⟩
    rcases hfiled.course_insert hconsistent hid hvalues name with hkept | hgained
    · rcases hbefore with hkept' | hlost
      · exact .inl (hkept'.trans hkept)
      · exact .inr (.inl (hlost.trans (.inl hkept)))
    · refine .inr (.inr ⟨p, ?_, hgained.mem, fun {q} hq ↦ ?_, hgained.found⟩)
      · rw [clears_highest hclears] at hid
        exact hc.not_mem_named hid
      · apply (hgained.others hq).imp_right
        intro hold
        rcases hbefore with hkept | hlost
        · exact hkept.named ▸ hold
        · exact hlost.subset hold

/-! ## Runs -/

/-- Each call takes its course. -/
def Courses (t : Table) (ops : List TableOp) (name : String) : Prop :=
  ∀ done op, done ++ [op] <+: ops →
    Kept name (t.run done) (t.run (done ++ [op])) ∨ Lost name (t.run done) (t.run (done ++ [op])) ∨
      ∃ p, Gained name p (t.run done) (t.run (done ++ [op]))

theorem Courses.init {op : TableOp} (h : t.Courses (ops ++ [op]) name) : t.Courses ops name :=
  fun done op' hdone ↦ h done op' (hdone.trans (List.prefix_append ops [op]))

theorem LastNamed.append (h : t.LastNamed ops name p) {op : TableOp}
    (hsame : (t.run (ops ++ [op])).named name = (t.run ops).named name) :
    t.LastNamed (ops ++ [op]) name p := by
  obtain ⟨done, first, later, rfl, hbefore, hafter, hlater⟩ := h
  refine ⟨done, first, later ++ [op], by simp, hbefore, hafter, ?_⟩
  intro more hmore
  rcases List.prefix_concat_iff.mp hmore with rfl | hmore
  · calc (t.run (done ++ first :: (later ++ [op]))).named name
        = (t.run ((done ++ first :: later) ++ [op])).named name := by simp
      _ = (t.run (done ++ first :: later)).named name := hsame
      _ = (t.run (done ++ [first])).named name := hlater later (List.prefix_refl later)
  · exact hlater more hmore

/-- What is found came in last. -/
theorem Courses.lastNamed_of_found (h : t.Courses ops name) (hstart : t.ofDirectory? name = none)
    (hfound : (t.run ops).ofDirectory? name = some p) : t.LastNamed ops name p := by
  induction ops using List.reverseRecOn with
  | nil =>
    rw [run, List.foldl_nil, hstart] at hfound
    cases hfound
  | append_singleton ops op ih =>
    rcases h ops op (List.prefix_refl _) with hkept | hlost | ⟨q, hgained⟩
    · rw [hkept.found] at hfound
      exact (ih h.init hfound).append hkept.named
    · rw [hlost.found] at hfound
      cases hfound
    · rw [hgained.found] at hfound
      obtain rfl := Option.some.inj hfound
      refine ⟨ops, op, [], rfl, hgained.fresh, hgained.mem, ?_⟩
      intro more hmore
      rw [List.prefix_nil.mp hmore]

/-- What came in last is found. -/
theorem Courses.found_of_lastNamed (h : t.Courses ops name) (hlast : t.LastNamed ops name p) :
    (t.run ops).ofDirectory? name = some p := by
  obtain ⟨done, op, later, rfl, hbefore, hafter, hlater⟩ := hlast
  suffices ∀ more, more <+: later →
      (t.run (done ++ op :: more)).ofDirectory? name = some p from this later (List.prefix_refl _)
  intro more
  induction more using List.reverseRecOn with
  | nil =>
    intro _
    have hprefix : done ++ [op] <+: done ++ op :: later := by simp
    rcases h done op hprefix with hkept | hlost | ⟨q, hgained⟩
    · exact absurd (hkept.named ▸ hafter) hbefore
    · exact absurd (hlost.subset hafter) hbefore
    · rw [hgained.found, (hgained.others hafter).resolve_right hbefore]
  | append_singleton more next ih =>
    intro hmore
    have hinit : more <+: later := (List.prefix_append more [next]).trans hmore
    have hshape : done ++ op :: (more ++ [next]) = (done ++ op :: more) ++ [next] := by simp
    have hprefix : (done ++ op :: more) ++ [next] <+: done ++ op :: later := by
      rw [← hshape]
      exact (List.prefix_append_right_inj done).mpr (List.prefix_cons_inj op |>.mpr hmore)
    have hsame : (t.run ((done ++ op :: more) ++ [next])).named name =
        (t.run (done ++ op :: more)).named name := by
      rw [← hshape, hlater _ hmore, hlater _ hinit]
    rw [hshape]
    rcases h _ next hprefix with hkept | hlost | ⟨q, hgained⟩
    · rw [hkept.found, ih hinit]
    · obtain ⟨q, hq, hgone⟩ := hlost.lost
      exact absurd (hsame ▸ hq) hgone
    · exact absurd (hsame ▸ hgained.mem) hgained.fresh

/-- Where no partition is left behind, a name that has partitions leads to one. -/
theorem Courses.found_iff (h : t.Courses ops name) (hleaves : t.LeavesNone ops name)
    (hstart : t.ofDirectory? name = none) (hempty : t.named name = []) :
    ((t.run ops).ofDirectory? name).isSome = true ↔ (t.run ops).named name ≠ [] := by
  induction ops using List.reverseRecOn with
  | nil => simp [run, hstart, hempty]
  | append_singleton ops op ih =>
    have hleaves' : t.LeavesNone ops name := fun done op' hdone ↦
      hleaves done op' (hdone.trans (List.prefix_append ops [op]))
    rcases h ops op (List.prefix_refl _) with hkept | hlost | ⟨q, hgained⟩
    · rw [hkept.found, hkept.named]
      exact ih h.init hleaves'
    · have hnone := hleaves ops op (List.prefix_refl _) hlost.lost fun _ ↦ hlost.subset
      rw [hlost.found, hnone]
      simp
    · rw [hgained.found]
      exact iff_of_true rfl (List.ne_nil_of_mem hgained.mem)

/-- A name that is never shared leaves none behind. -/
theorem leavesNone_of_length_le_one
    (h : ∀ done, done <+: ops → ((t.run done).named name).length ≤ 1) : t.LeavesNone ops name := by
  rintro done op hdone ⟨p, hp, hgone⟩ hsubset
  have hone := h done ((List.prefix_append done [op]).trans hdone)
  apply List.eq_nil_iff_forall_not_mem.mpr
  intro q hq
  obtain ⟨r, hr⟩ := List.length_eq_one_iff.mp (Nat.le_antisymm hone (List.length_pos_of_mem hp))
  rw [hr, List.mem_singleton] at hp
  have hq' := hsubset q hq
  rw [hr, List.mem_singleton] at hq'
  exact hgone (hp.trans hq'.symm ▸ hq)

section Run

variable {t₀ : Table} {database tableName baseDirectory : String} {columns : List Column}
  {clustering : Nat}

theorem filed_run (hc : t₀.Consistent) (hstart : t₀.Filed) (hkeeps : t₀.KeepsNames ops) :
    (t₀.run ops).Filed := by
  induction ops using List.reverseRecOn with
  | nil => exact hstart
  | append_singleton ops op ih =>
    have hkey := hkeeps ops op (List.prefix_refl _)
    have hfiled := ih fun done op' hdone ↦
      hkeeps done op' (hdone.trans (List.prefix_append ops [op]))
    rw [run_append]
    exact (hfiled.course (hc.run ops) (apply_shape _ op hkey) "").1

theorem courses_run (hc : t₀.Consistent) (hstart : t₀.Filed) (hkeeps : t₀.KeepsNames ops)
    (name : String) : t₀.Courses ops name := by
  intro done op hdone
  have hfiled : (t₀.run done).Filed := filed_run hc hstart fun before op' hbefore ↦
    hkeeps before op' (hbefore.trans ((List.prefix_append done [op]).trans hdone))
  rw [run_append]
  exact (hfiled.course (hc.run done) (apply_shape _ op (hkeeps done op hdone)) name).2

/-- Whatever is called on a new table, the partition found under a name is there and has that name.
It is the one that came in last, if no partition of the name has gone since, and then none is found;
so a name that has partitions leads to one if no call leaves any of them behind. -/
theorem ofDirectory?_run
    (hnew : Table.new database tableName columns clustering baseDirectory = .ok t₀)
    (hkeeps : t₀.KeepsNames ops) (hrun : t₀.run ops = t) (name : String) :
    (∀ p, t.ofDirectory? name = some p → p ∈ t.partitions ∧ t.directoryOf p = name) ∧
      (∀ p, t.ofDirectory? name = some p ↔ t₀.LastNamed ops name p) ∧
      (t₀.LeavesNone ops name → ((t.ofDirectory? name).isSome = true ↔
        ∃ p ∈ t.partitions, t.directoryOf p = name)) := by
  have hc := Consistent.of_new hnew
  obtain ⟨-, _, -, ht₀⟩ := new_eq_ok hnew
  have hpartitions : t₀.partitions = [] := by rw [ht₀]
  have hdirectories : t₀.directories = [] := by rw [ht₀]
  have hlookup (n : String) : t₀.directories.lookup n = none := by
    rw [hdirectories]
    exact List.lookup_nil
  have hstart := Filed.of_lookup_eq_none hlookup
  have hnone := ofDirectory?_eq_none (hlookup name)
  have hempty : t₀.named name = [] := by rw [named, hpartitions, List.filter_nil]
  have hcourses := courses_run hc hstart hkeeps name
  subst hrun
  refine ⟨fun p hp ↦ ?_, fun p ↦ ⟨?_, ?_⟩, fun hleaves ↦ ?_⟩
  · exact Table.mem_named.mp ((filed_run hc hstart hkeeps).mem_named (hc.run ops) hp)
  · exact hcourses.lastNamed_of_found hnone
  · exact hcourses.found_of_lastNamed
  · rw [hcourses.found_iff hleaves hnone hempty]
    constructor
    · intro hne
      obtain ⟨p, hp⟩ := List.exists_mem_of_ne_nil _ hne
      exact ⟨p, Table.mem_named.mp hp⟩
    · rintro ⟨p, hp⟩
      exact List.ne_nil_of_mem (Table.mem_named.mpr hp)

end Run

theorem ofDirectory?_run_visits :
    visits.KeepsNames visitOps ∧
      visits.LeavesNone visitOps "day=__HIVE_DEFAULT_PARTITION__" ∧
      ((visits.run visitOps).ofDirectory? "day=__HIVE_DEFAULT_PARTITION__").isSome = true := by
  have hkey : ∀ done ∈ visitOps.inits, (visits.run done).nullKey = visits.nullKey := by
    decide +kernel
  have hkeeps : visits.KeepsNames visitOps := by
    intro done op hdone _
    have hbefore := (List.prefix_append done [op]).trans hdone
    rw [← run_append, hkey _ ((List.mem_inits ..).mpr hdone),
      hkey _ ((List.mem_inits ..).mpr hbefore)]
  have hone : ∀ done ∈ visitOps.inits,
      ((visits.run done).named "day=__HIVE_DEFAULT_PARTITION__").length ≤ 1 := by
    decide +kernel
  have hleaves : visits.LeavesNone visitOps "day=__HIVE_DEFAULT_PARTITION__" :=
    leavesNone_of_length_le_one fun done hdone ↦ hone done ((List.mem_inits ..).mpr hdone)
  have hlive : ∃ p ∈ (visits.run visitOps).partitions,
      (visits.run visitOps).directoryOf p = "day=__HIVE_DEFAULT_PARTITION__" := by
    decide +kernel
  obtain ⟨-, -, hfound⟩ := ofDirectory?_run new_visits hkeeps rfl "day=__HIVE_DEFAULT_PARTITION__"
  exact ⟨hkeeps, hleaves, (hfound hleaves).mpr hlive⟩

/-- Of two partitions of a day one goes, and the day leads to none. -/
theorem exists_live_not_found :
    (∃ p ∈ (visits.run visitOps).partitions, (visits.run visitOps).directoryOf p = "day=1") ∧
      ((visits.run visitOps).ofDirectory? "day=1").isNone = true := by
  decide +kernel

end Table

end QueryPlanning
