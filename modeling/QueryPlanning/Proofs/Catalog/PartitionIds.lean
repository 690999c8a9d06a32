import QueryPlanning.Proofs.Catalog.IndexConsistency

/-!
# Identifiers of partitions

A table has two counters: the identifier that it hands out next, and the highest one that any of its
partitions ever had. The first moves with every call that takes an identifier, even one that fails
afterwards; the second moves with every partition that comes in, whoever chose its identifier.
Neither moves back when partitions go. As the first stays above the second, an identifier stands for
one partition throughout a run.
-/

namespace QueryPlanning

open Relation (ReflTransGen)

namespace TableOp

/-- The identifier under which a call adds a partition. -/
def added? (t : Table) : TableOp → Option PartitionId
  | .add p => (t.add p).toOption.map fun _ ↦ p.id
  | .create values location format files => (t.create values location format files).1.toOption
  | .reload old p => (t.reload old p).toOption.map fun _ ↦ p.id
  | _ => none

/-- The identifier that a call takes from the table. -/
def taken? (t : Table) : TableOp → Option PartitionId
  | .create .. | .nextId => some t.nextId.1
  | _ => none

/-- The key values that a call is to add a partition with. -/
def keys : TableOp → List Literal
  | .add p | .reload _ p => p.values
  | .create values .. => values
  | _ => []

end TableOp

namespace Table

/-- What the calls of a run give, one after the other. -/
def trace {α : Type} (f : Table → TableOp → Option α) (t : Table) : List TableOp → List α
  | [] => []
  | op :: rest => (f t op).toList ++ trace f (op.apply t) rest

/-- A partition is in the table at some time of a run. -/
def Holds (t : Table) (ops : List TableOp) (p : Partition) : Prop :=
  ∃ done, done <+: ops ∧ p ∈ (t.run done).partitions

variable {t t' t₀ : Table} {p q : Partition} {id : PartitionId} {op : TableOp} {ops : List TableOp}

theorem trace_append {α : Type} (f : Table → TableOp → Option α) (t : Table) (ops : List TableOp)
    (op : TableOp) : t.trace f (ops ++ [op]) = t.trace f ops ++ (f (t.run ops) op).toList := by
  induction ops generalizing t with
  | nil => exact List.append_nil _
  | cons first rest ih =>
    calc t.trace f (first :: rest ++ [op])
        = (f t first).toList ++ (first.apply t).trace f (rest ++ [op]) := rfl
      _ = (f t first).toList ++ ((first.apply t).trace f rest ++
            (f ((first.apply t).run rest) op).toList) := by rw [ih]
      _ = t.trace f (first :: rest) ++ (f (t.run (first :: rest)) op).toList :=
          (List.append_assoc ..).symm

/-- What the calls of a run give, one of them gives. -/
theorem mem_trace {α : Type} {f : Table → TableOp → Option α} {a : α} :
    a ∈ t.trace f ops ↔ ∃ done op, done ++ [op] <+: ops ∧ f (t.run done) op = some a := by
  induction ops using List.reverseRecOn with
  | nil =>
    refine iff_of_false List.not_mem_nil ?_
    rintro ⟨done, op, hdone, -⟩
    exact List.append_ne_nil_of_right_ne_nil done (List.cons_ne_nil op [])
      (List.prefix_nil.mp hdone)
  | append_singleton ops last ih =>
    rw [trace_append, List.mem_append, ih, Option.mem_toList]
    constructor
    · rintro (⟨done, op, hdone, hop⟩ | hlast)
      · exact ⟨done, op, hdone.trans (List.prefix_append ..), hop⟩
      · exact ⟨ops, last, List.prefix_refl _, hlast⟩
    · rintro ⟨done, op, hdone, hop⟩
      rcases List.prefix_concat_iff.mp hdone with heq | hdone
      · obtain ⟨rfl, hlast⟩ := List.append_inj' heq rfl
        obtain rfl := List.singleton_inj.mp hlast
        exact .inr hop
      · exact .inl ⟨done, op, hdone, hop⟩

theorem holds_append :
    t.Holds (ops ++ [op]) p ↔ p ∈ (op.apply (t.run ops)).partitions ∨ t.Holds ops p := by
  rw [← run_append]
  constructor
  · rintro ⟨done, hdone, hp⟩
    rcases List.prefix_concat_iff.mp hdone with rfl | hdone
    · exact .inl hp
    · exact .inr ⟨done, hdone, hp⟩
  · rintro (hp | ⟨done, hdone, hp⟩)
    · exact ⟨ops ++ [op], List.prefix_refl _, hp⟩
    · exact ⟨done, hdone.trans (List.prefix_append ..), hp⟩

theorem holds_of_mem (hp : p ∈ (t.run ops).partitions) : t.Holds ops p :=
  ⟨ops, List.prefix_refl ops, hp⟩

/-- Partitions may have gone and identifiers may have been used up, but none was taken back. -/
structure Remains (t t' : Table) : Prop where
  highest : t'.highest = t.highest
  next : t.ids.next ≤ t'.ids.next
  subset {p : Partition} : p ∈ t'.partitions → p ∈ t.partitions

theorem Remains.refl (t : Table) : Remains t t := ⟨rfl, Int.le_refl _, id⟩

theorem Remains.trans {t₁ : Table} (h : Remains t t₁) (h' : Remains t₁ t') : Remains t t' where
  highest := h'.highest.trans h.highest
  next := Int.le_trans h.next h'.next
  subset := h.subset ∘ h'.subset

theorem Remains.of_steps (h : ReflTransGen Remains t t') : Remains t t' := by
  induction h with
  | refl => exact .refl t
  | tail _ hlast ih => exact ih.trans hlast

theorem remains_nextId (t : Table) : Remains t t.nextId.2 :=
  ⟨rfl, Int.le_of_lt (Int.lt_succ _), id⟩

theorem clearing_remains : Clearing Remains where
  remove _ := ⟨rfl, Int.le_refl _, fun hq ↦ (List.mem_filter.mp hq).1⟩
  reset := ⟨rfl, Int.le_refl _, nofun⟩
  setDefault := ⟨rfl, Int.le_refl _, id⟩
  nextId := remains_nextId _

theorem next_insert (t : Table) (p : Partition) :
    t.ids.next ≤ (t.insert p).ids.next ∧ p.id.val < (t.insert p).ids.next := by
  have hids : (t.insert p).ids = if t.ids.next ≤ p.id.val then ⟨p.id.val + 1⟩ else t.ids := rfl
  rw [hids]
  split
  · next hle => exact ⟨Int.le_add_one hle, Int.lt_succ _⟩
  · next hlt => exact ⟨Int.le_refl _, Int.not_le.mp hlt⟩

/-- A call adds a partition to what remains of the table. -/
structure Adds (op : TableOp) (t : Table) (p : Partition) : Prop where
  added : op.added? t = some p.id
  fresh : t.highest < p.id.val
  stored : storedValues t.clusteringColumns op.keys = .ok p.values
  rest : ∃ t₁, Remains t t₁ ∧ op.apply t = t₁.insert p

namespace Adds

variable (h : Adds op t p)

include h

theorem highest : (op.apply t).highest = p.id.val := by
  obtain ⟨t₁, -, hinsert⟩ := h.rest
  rw [hinsert]
  rfl

theorem next : p.id.val < (op.apply t).ids.next := by
  obtain ⟨t₁, -, hinsert⟩ := h.rest
  rw [hinsert]
  exact (t₁.next_insert p).2

theorem next_le : t.ids.next ≤ (op.apply t).ids.next := by
  obtain ⟨t₁, hremains, hinsert⟩ := h.rest
  rw [hinsert]
  exact Int.le_trans hremains.next (t₁.next_insert p).1

theorem mem : p ∈ (op.apply t).partitions := by
  obtain ⟨t₁, -, hinsert⟩ := h.rest
  rw [hinsert]
  exact mem_insert

theorem old_or_new (hq : q ∈ (op.apply t).partitions) : q = p ∨ q ∈ t.partitions := by
  obtain ⟨t₁, hremains, hinsert⟩ := h.rest
  rw [hinsert] at hq
  exact (List.mem_append.mp hq).symm.imp List.mem_singleton.mp hremains.subset

end Adds

/-- What a call accepts, it adds to what remains of the table. -/
theorem Adds.of_accept {t₁ : Table} (haccept : t.accept p = .ok q) (hkeys : op.keys = p.values)
    (hadded : op.added? t = some p.id) (hremains : Remains t t₁)
    (happly : op.apply t = t₁.insert q) : Adds op t q := by
  have hfresh := (accept_eq_ok haccept).1
  simp only [accept, Outcome.bind_eq_ok, Outcome.pure_eq_ok] at haccept
  obtain ⟨values, hvalues, _, _, rfl⟩ := haccept
  exact ⟨hadded, hfresh, hkeys ▸ hvalues, t₁, hremains, happly⟩

theorem create_cases (t : Table) (values : List Literal) (location : String)
    (format : FileFormat) (files : List DataFile) :
    let p : Partition := { id := t.nextId.1, values, location, format, files }
    (∃ e, t.accept p = .error e ∧
      t.create values location format files = (.error e, t.nextId.2)) ∨
      ∃ q, t.accept p = .ok q ∧
        t.create values location format files = (.ok p.id, t.nextId.2.insert q) := by
  intro p
  have hadd : t.nextId.2.add p = t.nextId.2.insert <$> t.accept p := (map_eq_pure_bind ..).symm
  cases haccept : t.accept p with
  | error e =>
    rw [haccept] at hadd
    exact .inl ⟨e, rfl, by simp only [create, p, hadd, Except.map_error]⟩
  | ok q =>
    rw [haccept] at hadd
    exact .inr ⟨q, rfl, by simp only [create, p, hadd, Except.map_ok]⟩

/-- A call only takes partitions away, or it adds one above all there ever were. -/
theorem apply_course (t : Table) (op : TableOp) :
    (op.added? t = none ∧ Remains t (op.apply t)) ∨ ∃ p, Adds op t p := by
  cases op with
  | add p =>
    cases hadd : t.add p with
    | error e =>
      refine .inl ⟨by rw [TableOp.added?, hadd]; rfl, ?_⟩
      rw [TableOp.apply, hadd]
      exact .refl t
    | ok t' =>
      obtain ⟨q, hq, rfl⟩ := add_eq_ok hadd
      refine .inr ⟨q, .of_accept hq rfl ?_ (.refl t) ?_⟩
      · rw [TableOp.added?, hadd]
        rfl
      · rw [TableOp.apply, hadd]
        rfl
  | create values location format files =>
    rcases t.create_cases values location format files with ⟨e, -, hcreate⟩ | ⟨q, hq, hcreate⟩
    · refine .inl ⟨congrArg (·.1.toOption) hcreate, ?_⟩
      rw [TableOp.apply, hcreate]
      exact t.remains_nextId
    · exact .inr ⟨q, .of_accept hq rfl (congrArg (·.1.toOption) hcreate) t.remains_nextId
        (congrArg (·.2) hcreate)⟩
  | drop id => exact .inl ⟨rfl, .of_steps (clearing_remains.drop t id)⟩
  | dropSpec spec => exact .inl ⟨rfl, .of_steps (clearing_remains.dropSpec t spec)⟩
  | dropAll ids => exact .inl ⟨rfl, .of_steps (clearing_remains.dropAll t ids)⟩
  | reload old p =>
    cases hreload : t.reload old p with
    | error e =>
      refine .inl ⟨by rw [TableOp.added?, hreload]; rfl, ?_⟩
      rw [TableOp.apply, hreload]
      exact .refl t
    | ok t' =>
      obtain ⟨q, hq, rfl⟩ := reload_eq_ok hreload
      refine .inr ⟨q, .of_accept hq rfl ?_ (.of_steps (clearing_remains.drop t old)) ?_⟩
      · rw [TableOp.added?, hreload]
        rfl
      · rw [TableOp.apply, hreload]
        rfl
  | reset => exact .inl ⟨rfl, clearing_remains.reset⟩
  | setDefault location format => exact .inl ⟨rfl, clearing_remains.setDefault⟩
  | nextId => exact .inl ⟨rfl, clearing_remains.nextId⟩
  | annotate nullKey nullColumn hosts rows cached =>
    exact .inl ⟨rfl, rfl, Int.le_refl _, fun hp ↦ hp⟩

theorem next_le_apply (t : Table) (op : TableOp) : t.ids.next ≤ (op.apply t).ids.next := by
  rcases t.apply_course op with ⟨-, hremains⟩ | ⟨p, hadds⟩
  · exact hremains.next
  · exact hadds.next_le

theorem taken?_spec (h : op.taken? t = some id) :
    id.val = t.ids.next ∧ id.val < (op.apply t).ids.next := by
  have hnext : t.nextId.1.val = t.ids.next := rfl
  have hlt : t.ids.next < t.nextId.2.ids.next := Int.lt_succ _
  cases op with
  | create values location format files =>
    obtain rfl := Option.some.inj h
    refine ⟨hnext, Int.lt_of_lt_of_le hlt ?_⟩
    rcases t.create_cases values location format files with ⟨e, -, hcreate⟩ | ⟨q, -, hcreate⟩
    · apply Int.le_of_eq
      rw [TableOp.apply, hcreate]
    · rw [TableOp.apply, hcreate]
      exact (t.nextId.2.next_insert q).1
  | nextId =>
    obtain rfl := Option.some.inj h
    exact ⟨hnext, hlt⟩
  | _ => cases h

/-! ## Runs -/

/-- Identifiers ascend throughout a run, and each stands for one partition. -/
structure Ascends (t : Table) (ops : List TableOp) : Prop where
  counters : (t.run ops).highest < (t.run ops).ids.next
  held {p : Partition} : t.Holds ops p → p.id.val ≤ (t.run ops).highest
  unique {p q : Partition} : t.Holds ops p → t.Holds ops q → p.id = q.id → p = q
  traced {p : Partition} : t.Holds ops p → p.id ∈ t.trace TableOp.added? ops
  ascending : (t.trace TableOp.added? ops).Pairwise fun i j ↦ i.val < j.val
  added {i : PartitionId} : i ∈ t.trace TableOp.added? ops → i.val ≤ (t.run ops).highest
  taken {i : PartitionId} : i ∈ t.trace TableOp.taken? ops → i.val < (t.run ops).ids.next

namespace Ascends

theorem nil (hempty : t.partitions = []) (hcounters : t.highest < t.ids.next) :
    Ascends t [] := by
  have hnone {p : Partition} (hp : t.Holds [] p) : False := by
    obtain ⟨done, hdone, hp⟩ := hp
    obtain rfl := List.prefix_nil.mp hdone
    have hp' : p ∈ t.partitions := hp
    rw [hempty] at hp'
    cases hp'
  exact ⟨hcounters, fun hp ↦ (hnone hp).elim, fun hp ↦ (hnone hp).elim, fun hp ↦ (hnone hp).elim,
    .nil, nofun, nofun⟩

theorem taken_append (h : Ascends t ops) {i : PartitionId}
    (hi : i ∈ t.trace TableOp.taken? (ops ++ [op])) : i.val < (op.apply (t.run ops)).ids.next := by
  rw [trace_append] at hi
  rcases List.mem_append.mp hi with hi | hi
  · exact Int.lt_of_lt_of_le (h.taken hi) ((t.run ops).next_le_apply op)
  · exact (taken?_spec (Option.mem_toList.mp hi)).2

theorem append_remains (h : Ascends t ops) (hadded : op.added? (t.run ops) = none)
    (hremains : Remains (t.run ops) (op.apply (t.run ops))) : Ascends t (ops ++ [op]) := by
  have hholds {p : Partition} (hp : t.Holds (ops ++ [op]) p) : t.Holds ops p :=
    (holds_append.mp hp).elim (fun hp ↦ holds_of_mem (hremains.subset hp)) fun hp ↦ hp
  have htrace : t.trace TableOp.added? (ops ++ [op]) = t.trace TableOp.added? ops := by
    rw [trace_append, hadded]
    exact List.append_nil _
  constructor
  case counters =>
    rw [run_append, hremains.highest]
    exact Int.lt_of_lt_of_le h.counters hremains.next
  case held =>
    intro p hp
    rw [run_append, hremains.highest]
    exact h.held (hholds hp)
  case unique => exact fun hp hq ↦ h.unique (hholds hp) (hholds hq)
  case traced =>
    intro p hp
    rw [htrace]
    exact h.traced (hholds hp)
  case ascending =>
    rw [htrace]
    exact h.ascending
  case added =>
    intro i hi
    rw [htrace] at hi
    rw [run_append, hremains.highest]
    exact h.added hi
  case taken =>
    rw [run_append]
    exact h.taken_append

theorem append_adds (h : Ascends t ops) (hadds : Adds op (t.run ops) p) :
    Ascends t (ops ++ [op]) := by
  have hholds {q : Partition} (hq : t.Holds (ops ++ [op]) q) : q = p ∨ t.Holds ops q :=
    (holds_append.mp hq).elim (fun hq ↦ (hadds.old_or_new hq).imp_right holds_of_mem) .inr
  have htrace : t.trace TableOp.added? (ops ++ [op]) = t.trace TableOp.added? ops ++ [p.id] := by
    rw [trace_append, hadds.added]
    rfl
  have hbelow {q : Partition} (hq : t.Holds ops q) : q.id.val < p.id.val :=
    Int.lt_of_le_of_lt (h.held hq) hadds.fresh
  constructor
  case counters =>
    rw [run_append, hadds.highest]
    exact hadds.next
  case held =>
    intro q hq
    rw [run_append, hadds.highest]
    rcases hholds hq with rfl | hq
    · exact Int.le_refl _
    · exact Int.le_of_lt (hbelow hq)
  case unique =>
    intro q r hq hr hid
    rcases hholds hq with rfl | hq
    · rcases hholds hr with rfl | hr
      · rfl
      · exact absurd (congrArg Id.val hid).symm (Int.ne_of_lt (hbelow hr))
    · rcases hholds hr with rfl | hr
      · exact absurd (congrArg Id.val hid) (Int.ne_of_lt (hbelow hq))
      · exact h.unique hq hr hid
  case traced =>
    intro q hq
    rw [htrace]
    rcases hholds hq with rfl | hq
    · exact List.mem_append_right _ List.mem_cons_self
    · exact List.mem_append_left _ (h.traced hq)
  case ascending =>
    rw [htrace]
    refine List.pairwise_append.mpr ⟨h.ascending, List.pairwise_singleton _ _, ?_⟩
    intro i hi j hj
    obtain rfl := List.mem_singleton.mp hj
    exact Int.lt_of_le_of_lt (h.added hi) hadds.fresh
  case added =>
    intro i hi
    rw [htrace] at hi
    rw [run_append, hadds.highest]
    rcases List.mem_append.mp hi with hi | hi
    · exact Int.le_of_lt (Int.lt_of_le_of_lt (h.added hi) hadds.fresh)
    · obtain rfl := List.mem_singleton.mp hi
      exact Int.le_refl _
  case taken =>
    rw [run_append]
    exact h.taken_append

end Ascends

theorem ascends_run (hempty : t.partitions = []) (hcounters : t.highest < t.ids.next)
    (ops : List TableOp) : Ascends t ops := by
  induction ops using List.reverseRecOn with
  | nil => exact .nil hempty hcounters
  | append_singleton done op ih =>
    rcases (t.run done).apply_course op with ⟨hadded, hremains⟩ | ⟨p, hadds⟩
    · exact ih.append_remains hadded hremains
    · exact ih.append_adds hadds

theorem Ascends.of_new {database name baseDirectory : String} {columns : List Column}
    {clustering : Nat} (h : Table.new database name columns clustering baseDirectory = .ok t)
    (ops : List TableOp) : Ascends t ops := by
  obtain ⟨_, _, _, rfl⟩ := new_eq_ok h
  exact ascends_run rfl Int.one_pos ops

theorem storedValue_error {c : Column} {v : Literal} {e : Error}
    (h : storedValue c v = .error e) : e.kind = .invalidArgument := by
  unfold storedValue at h
  split at h
  · split at h
    · cases h
    · obtain rfl := Except.error.inj h
      rfl
  · cases h

theorem storedValues_error {columns : List Column} {values : List Literal} {e : Error}
    (h : storedValues columns values = .error e) : e.kind = .invalidArgument := by
  induction columns generalizing values with
  | nil => cases h
  | cons c cs ih =>
    cases values with
    | nil => cases h
    | cons v vs =>
      rcases Outcome.bind_eq_error.mp h with hv | ⟨w, -, h⟩
      · exact storedValue_error hv
      · rcases Outcome.bind_eq_error.mp h with hvs | ⟨ws, -, h⟩
        · exact ih hvs
        · cases h

theorem Consistent.check_error (h : t.Consistent) (hid : t.highest < p.id.val) {e : Error}
    (hcheck : t.check p = .error e) : e.kind = .invalidArgument := by
  have hdefault : p.isDefault = false := by
    apply decide_eq_false
    intro heq
    rw [heq] at hid
    exact absurd h.highest (Int.not_le.mpr hid)
  have hnone : t.partition? p.id = none := by
    cases hfind : t.partition? p.id with
    | none => rfl
    | some q =>
      obtain ⟨hq, heq⟩ := mem_of_partition? hfind
      have hle := (h.inRange hq).2
      rw [heq] at hle
      exact absurd hle (Int.not_le.mpr hid)
  have hcount : t.check p = if p.values.length ≠ t.clustering then
      .error (.keyCount p.id p.values.length t.name t.clustering) else .ok () := by
    unfold check
    rw [hdefault, hnone, if_neg (Int.not_le.mpr hid)]
    rfl
  rw [hcount] at hcheck
  split at hcheck
  · obtain rfl := Except.error.inj hcheck
    rfl
  · cases hcheck

/-- A partition above all that there were is refused for its values only. -/
theorem Consistent.accept_error (h : t.Consistent) (hid : t.highest < p.id.val) {e : Error}
    (haccept : t.accept p = .error e) : e.kind = .invalidArgument := by
  rcases Outcome.bind_eq_error.mp haccept with hvalues | ⟨values, -, haccept⟩
  · exact storedValues_error hvalues
  · rcases Outcome.bind_eq_error.mp haccept with hcheck | ⟨_, -, haccept⟩
    · exact h.check_error (p := { p with values }) hid hcheck
    · cases haccept

theorem Consistent.create_error (h : t.Consistent) (hcounters : t.highest < t.ids.next)
    {values : List Literal} {location : String} {format : FileFormat} {files : List DataFile}
    {e : Error} (he : (t.create values location format files).1 = .error e) :
    e.kind = .invalidArgument := by
  rcases t.create_cases values location format files with ⟨e', hq, hcreate⟩ | ⟨q, -, hcreate⟩
  · rw [hcreate] at he
    obtain rfl := Except.error.inj he
    exact h.accept_error hcounters hq
  · rw [hcreate] at he
    cases he

/-- Whatever is called on a new table, the identifiers of the partitions that come in ascend, and so
each of them stands for one partition forever. What the table hands out is above all it handed out
before and all that any of its partitions ever had; so it always does for a new partition. -/
theorem run_ids_fresh {database name baseDirectory : String} {columns : List Column}
    {clustering : Nat}
    (hnew : Table.new database name columns clustering baseDirectory = .ok t₀)
    (hrun : t₀.run ops = t) :
    ((t₀.trace TableOp.added? ops).Pairwise fun i j ↦ i.val < j.val) ∧
      (∀ p, t₀.Holds ops p → p.id ∈ t₀.trace TableOp.added? ops ∧ p.id ≠ Partition.defaultId ∧
        ∀ q, t₀.Holds ops q → p.id = q.id → p = q) ∧
      (∀ i ∈ t₀.trace TableOp.taken? ops, i.val < t.nextId.1.val) ∧
      (∀ done, done <+: ops → ∀ p ∈ (t₀.run done).allPartitions, p.id.val < t.nextId.1.val) ∧
      ∀ values location format files e, (t.create values location format files).1 = .error e →
        e.kind ≠ .alreadyExists := by
  subst hrun
  have hnewConsistent := Consistent.of_new hnew
  have hascends := Ascends.of_new hnew ops
  have hconsistent := hnewConsistent.run ops
  refine ⟨hascends.ascending, fun p hp ↦ ⟨hascends.traced hp, ?_, fun q ↦ hascends.unique hp⟩,
    fun i ↦ hascends.taken, fun done hdone p hp ↦ ?_, fun values location format files e he ↦ ?_⟩
  · obtain ⟨done, _, hp⟩ := hp
    intro hdefault
    have hpos := ((hnewConsistent.run done).inRange hp).1
    rw [hdefault] at hpos
    exact absurd hpos (Int.lt_irrefl 0)
  · have hle : p.id.val ≤ (t₀.run ops).highest := by
      rcases List.mem_cons.mp hp with rfl | hp
      · rw [(hnewConsistent.run done).default]
        exact hconsistent.highest
      · exact hascends.held ⟨done, hdone, hp⟩
    exact Int.lt_of_le_of_lt hle hascends.counters
  · rw [hconsistent.create_error hascends.counters he]
    decide

/-- A refused partition uses up an identifier, one from elsewhere skips some, and then all goes. -/
def skippingOps : List TableOp :=
  [.create [.integer 1] "/1" .text [], .create [] "/2" .text [],
    .add { id := ⟨7⟩, values := [.null], location := "/7", format := .text }, .reset,
    .create [.integer 1] "/8" .text []]

theorem run_ids_fresh_skipping :
    (visits.trace TableOp.added? skippingOps).map (·.val) = [1, 7, 8] ∧
      (visits.trace TableOp.taken? skippingOps).map (·.val) = [1, 2, 8] ∧
      ∀ done, done <+: skippingOps → ∀ p ∈ (visits.run done).allPartitions, p.id.val < 9 := by
  have hrun : visits.run skippingOps = visits.run skippingOps := rfl
  obtain ⟨-, -, -, hheld, -⟩ := run_ids_fresh new_visits hrun
  have hnext : (visits.run skippingOps).nextId.1.val = 9 := by decide +kernel
  exact ⟨by decide +kernel, by decide +kernel, hnext ▸ hheld⟩

end Table

end QueryPlanning
