import QueryPlanning.Proofs.Catalog.KeyTexts
import QueryPlanning.Proofs.Catalog.PartitionIds

/-!
# Partitions by key values

A table compares the key values of its partitions with those of a specification by their texts, with
null and the empty string as one. What comes in is stored as it was given, but for decimals: they
are moved to the scale of their column, and the text of a decimal shows its scale. A specification
is not moved there, so that the values a partition was added with lead back to it if and only if its
decimals had the right scales.
-/

namespace QueryPlanning

namespace Table

open Text (lowerAscii sameName)

variable {t t₀ : Table} {p q : Partition} {op : TableOp} {ops : List TableOp}
  {values stored : List Literal} {columns : List Column} {spec : List KeyValue}

theorem storedValue_eq_self {c : Column} {v : Literal}
    (h : ∀ precision scale d, c.type = .decimal precision scale → v = .decimal d →
      d.scale = scale) : storedValue c v = .ok v := by
  unfold storedValue
  split
  · next precision scale htype =>
    have hself : v.rescale? scale = some v := by
      cases v with
      | decimal d =>
        obtain rfl := h precision scale d htype rfl
        exact congrArg (Option.map Literal.decimal) d.rescale?_scale
      | _ => rfl
    rw [hself]
  · rfl

theorem storedValues_eq_self (h : Scaled (columns.map (·.type)) values) :
    storedValues columns values = .ok values := by
  induction columns generalizing values with
  | nil => rfl
  | cons c cs ih =>
    cases values with
    | nil => rfl
    | cons v vs =>
      have hfirst : storedValue c v = .ok v := by
        apply storedValue_eq_self
        intro precision scale d htype hv
        exact h 0 precision scale d (congrArg some htype) (congrArg some hv)
      have hrest : storedValues cs vs = .ok vs := ih fun col ↦ h (col + 1)
      rw [storedValues, hfirst, hrest]
      rfl

theorem length_storedValues (h : storedValues columns values = .ok stored) :
    stored.length = values.length := by
  induction columns generalizing values stored with
  | nil => rw [Except.ok.inj h]
  | cons c cs ih =>
    cases values with
    | nil => rw [Except.ok.inj h]
    | cons v vs =>
      simp only [storedValues, Outcome.bind_eq_ok, Outcome.pure_eq_ok] at h
      obtain ⟨_, _, ws, hws, rfl⟩ := h
      exact congrArg (· + 1) (ih hws)

theorem exists_decimal_of_storedValues (h : storedValues columns values = .ok stored) {col : Nat}
    {precision scale : UInt8} {d : Decimal}
    (htype : (columns.map (·.type))[col]? = some (.decimal precision scale))
    (hd : values[col]? = some (.decimal d)) : ∃ e, stored[col]? = some (.decimal e) := by
  have hcol : col < stored.length := by
    rw [length_storedValues h]
    exact (List.getElem?_eq_some_iff.mp hd).1
  obtain ⟨v, hv, hstored⟩ :=
    exists_rescale?_of_storedValues h htype (List.getElem?_eq_getElem hcol)
  obtain rfl := Option.some.inj (hd.symm.trans hv)
  obtain ⟨e, -, he⟩ := Literal.rescale?_decimal.mp hstored
  exact ⟨e, (List.getElem?_eq_getElem hcol).trans (congrArg some he)⟩

/-- Values keep their texts if and only if their decimals have the scales of the columns. -/
theorem map_keyText_storedValues (t : Table) (h : storedValues columns values = .ok stored) :
    stored.map t.keyText = values.map t.keyText ↔ Scaled (columns.map (·.type)) values := by
  constructor
  · intro htexts col precision scale d htype hd
    obtain ⟨e, he⟩ := exists_decimal_of_storedValues h htype hd
    have htext : e.text = d.text := by
      have hcol := congrArg (·[col]?) htexts
      simp only [List.getElem?_map, he, hd] at hcol
      exact Option.some.inj hcol
    rw [← Decimal.text_injective htext]
    exact scaled_of_storedValues h col precision scale e htype he
  · intro hscaled
    rw [storedValues_eq_self hscaled] at h
    rw [Except.ok.inj h]

/-- A specification gives each clustering column a value, whatever the order of its entries and the
case of its names. -/
def Specifies (t : Table) (spec : List KeyValue) (values : List Literal) : Prop :=
  (spec.map fun kv ↦ (lowerAscii kv.name, kv.value)).Perm
    ((t.clusteringColumns.zip values).map fun e ↦ (lowerAscii e.1.name, e.2))

instance (t : Table) (spec : List KeyValue) (values : List Literal) :
    Decidable (t.Specifies spec values) := inferInstanceAs (Decidable (List.Perm _ _))

theorem filter_key {α : Type} {entries : List (String × α)} {key : String} {a : α}
    (hnodup : (entries.map (·.1)).Nodup) (h : (key, a) ∈ entries) :
    entries.filter (·.1 == key) = [(key, a)] := by
  induction entries with
  | nil => cases h
  | cons e rest ih =>
    obtain ⟨hfirst, hrest⟩ := List.nodup_cons.mp hnodup
    rcases List.mem_cons.mp h with rfl | h
    · have hnone : rest.filter (·.1 == key) = [] := by
        apply List.filter_eq_nil_iff.mpr
        intro e he heq
        exact hfirst (List.mem_map.mpr ⟨e, he, beq_iff_eq.mp heq⟩)
      rw [List.filter_cons_of_pos (p := fun e : String × α ↦ e.1 == key) (beq_self_eq_true key),
        hnone]
    · have hne : ¬(e.1 == key) = true := by
        intro heq
        exact hfirst (List.mem_map.mpr ⟨_, h, (beq_iff_eq.mp heq).symm⟩)
      rw [List.filter_cons_of_neg (p := fun e : String × α ↦ e.1 == key) hne, ih hrest h]

theorem specValue?_eq_some_iff {c : Column} {v : Literal} : specValue? spec c = some v ↔
    ∃ kv, (spec.filter fun kv ↦ sameName kv.name c.name) = [kv] ∧ kv.value = v := by
  unfold specValue?
  split
  · next kv hkv =>
    rw [hkv]
    constructor
    · intro h
      exact ⟨kv, rfl, Option.some.inj h⟩
    · rintro ⟨kv', hkv', rfl⟩
      obtain rfl := List.singleton_inj.mp hkv'
      rfl
  · next hother =>
    refine iff_of_false nofun ?_
    rintro ⟨kv, hkv, -⟩
    exact hother kv hkv

theorem specValue?_eq_some {c : Column} {v : Literal}
    (hnodup : (spec.map fun kv ↦ lowerAscii kv.name).Nodup)
    (h : (lowerAscii c.name, v) ∈ spec.map fun kv ↦ (lowerAscii kv.name, kv.value)) :
    specValue? spec c = some v := by
  have hpairs : (spec.filter fun kv ↦ sameName kv.name c.name).map
      (fun kv ↦ (lowerAscii kv.name, kv.value)) = [(lowerAscii c.name, v)] := by
    rw [← filter_key (by rwa [List.map_map]) h, List.filter_map]
    rfl
  obtain ⟨kv, hkv, hpair⟩ := List.map_eq_singleton_iff.mp hpairs
  exact specValue?_eq_some_iff.mpr ⟨kv, hkv, congrArg Prod.snd hpair⟩

theorem mapM_eq_some {α β : Type} {f : α → Option β} {l : List α} {bs : List β} :
    l.mapM f = some bs ↔ List.Forall₂ (fun a b ↦ f a = some b) l bs := by
  induction l generalizing bs with
  | nil =>
    rw [List.mapM_nil, List.forall₂_nil_left_iff]
    exact Option.some_inj.trans eq_comm
  | cons a l ih =>
    rw [List.mapM_cons, List.forall₂_cons_left_iff]
    constructor
    · intro h
      obtain ⟨b, hb, h⟩ := Option.bind_eq_some_iff.mp h
      obtain ⟨rest, hrest, h⟩ := Option.bind_eq_some_iff.mp h
      exact ⟨b, rest, hb, ih.mp hrest, (Option.some.inj h).symm⟩
    · rintro ⟨b, rest, hb, hrest, rfl⟩
      rw [hb, ih.mpr hrest]
      rfl

theorem Specifies.specKeys? (h : t.Specifies spec values) (hclustering : 0 < t.clustering)
    (hnames : (t.clusteringColumns.map fun c ↦ lowerAscii c.name).Nodup)
    (hvalues : values.length = t.clusteringColumns.length) :
    t.specKeys? spec = some (values.map t.keyText) := by
  have hnodup : (spec.map fun kv ↦ lowerAscii kv.name).Nodup := by
    have hperm : (spec.map fun kv ↦ lowerAscii kv.name).Perm
        (((t.clusteringColumns.zip values).map (·.1)).map fun c ↦ lowerAscii c.name) := by
      simpa only [List.map_map, Function.comp_def] using h.map (·.1)
    rw [List.map_fst_zip (Nat.le_of_eq hvalues.symm)] at hperm
    exact hperm.nodup_iff.mpr hnames
  rw [Table.specKeys?, if_neg (Nat.ne_of_gt hclustering)]
  apply mapM_eq_some.mpr
  rw [List.forall₂_map_right_iff, List.forall₂_iff_zip]
  refine ⟨hvalues.symm, fun {c v} hcv ↦ ?_⟩
  have hmem : (lowerAscii c.name, v) ∈ spec.map fun kv ↦ (lowerAscii kv.name, kv.value) :=
    h.mem_iff.mpr (List.mem_map.mpr ⟨(c, v), hcv, rfl⟩)
  rw [specValue?_eq_some hnodup hmem]
  rfl

theorem all_zipWith_beq {ks ls : List String} (h : ks.length = ls.length) :
    (List.zipWith (· == ·) ks ls).all id = true ↔ ks = ls := by
  induction ks generalizing ls with
  | nil =>
    obtain rfl := List.length_eq_zero_iff.mp h.symm
    exact iff_of_true rfl rfl
  | cons k ks ih =>
    cases ls with
    | nil => cases h
    | cons l ls =>
      rw [List.zipWith_cons_cons, List.all_cons, Bool.and_eq_true, ih (Nat.succ.inj h),
        List.cons.injEq]
      exact and_congr_left' beq_iff_eq

theorem mem_ofSpec {keys : List String} (hkeys : t.specKeys? spec = some keys)
    (hlength : ∀ q ∈ t.partitions, q.values.length = keys.length) :
    q ∈ t.ofSpec spec ↔ q ∈ t.partitions ∧ q.values.map t.keyText = keys := by
  rw [ofSpec, hkeys]
  dsimp only
  rw [List.mem_filter]
  refine and_congr_right fun hq ↦ all_zipWith_beq ?_
  rw [List.length_map]
  exact hlength q hq

/-- A partition came in with some key values and is there still. -/
def AddedWith (t : Table) (ops : List TableOp) (values : List Literal) (p : Partition) : Prop :=
  p ∈ (t.run ops).partitions ∧ ∃ done op, done ++ [op] <+: ops ∧ op.keys = values ∧
    op.added? (t.run done) = some p.id

theorem Ascends.exists_addedWith (h : Ascends t ops) (hp : p ∈ (t.run ops).partitions) :
    ∃ values, t.AddedWith ops values p := by
  obtain ⟨done, op, hdone, hadded⟩ := mem_trace.mp (h.traced (holds_of_mem hp))
  exact ⟨op.keys, hp, done, op, hdone, rfl, hadded⟩

/-- What is found under an identifier is what came in under it. -/
theorem AddedWith.storedValues_eq (h : t.AddedWith ops values p) (hascends : Ascends t ops) :
    ∃ columns : List Column, columns.map (·.type) = t.keyTypes ∧
      storedValues columns values = .ok p.values := by
  obtain ⟨hp, done, op, hdone, rfl, hadded⟩ := h
  rcases (t.run done).apply_course op with ⟨hnone, -⟩ | ⟨q, hadds⟩
  · rw [hadded] at hnone
    cases hnone
  · have hq : t.Holds ops q := by
      refine ⟨done ++ [op], hdone, ?_⟩
      rw [run_append]
      exact hadds.mem
    have hid : p.id = q.id := Option.some.inj (hadded.symm.trans hadds.added)
    obtain rfl := hascends.unique (holds_of_mem hp) hq hid
    exact ⟨_, t.run_keyTypes done, hadds.stored⟩

/-- In a table that any calls led to, the values that a partition was added with lead back to it, or
to another one of the same texts, if and only if the decimals among them have the scales of their
columns. In any case they lead to the live partitions of their own texts. -/
theorem ofSpec_run_added {database name baseDirectory : String} {clustering : Nat}
    (hnew : Table.new database name columns clustering baseDirectory = .ok t₀)
    (hrun : t₀.run ops = t) (hclustering : 0 < clustering)
    (hnames : (t.clusteringColumns.map fun c ↦ lowerAscii c.name).Nodup)
    (hadded : t₀.AddedWith ops values p) (hspec : t.Specifies spec values) :
    (∀ q, q ∈ t.ofSpec spec ↔
        q ∈ t.partitions ∧ q.values.map t.keyText = values.map t.keyText) ∧
      (p ∈ t.ofSpec spec ↔ Scaled t.keyTypes values) ∧
      ((∃ q, t.ofSpec? spec = some q ∧ q ∈ t.partitions ∧
          q.values.map t.keyText = p.values.map t.keyText) ↔ Scaled t.keyTypes values) := by
  subst hrun
  have hconsistent := (Consistent.of_new hnew).run ops
  obtain ⟨columns', htypes, hstored⟩ := hadded.storedValues_eq (Ascends.of_new hnew ops)
  have htexts := (t₀.run ops).map_keyText_storedValues hstored
  rw [htypes, ← t₀.run_keyTypes ops] at htexts
  have hlength {q : Partition} (hq : q ∈ (t₀.run ops).partitions) :
      q.values.length = values.length := by
    rw [hconsistent.values hq, ← length_storedValues hstored, hconsistent.values hadded.1]
  have hcolumns : (t₀.run ops).clusteringColumns.length = (t₀.run ops).clustering :=
    List.length_take_of_le hconsistent.clustering
  have hpositive : 0 < (t₀.run ops).clustering := by
    rw [run_clustering]
    obtain ⟨_, _, _, rfl⟩ := new_eq_ok hnew
    exact hclustering
  have hkeys : (t₀.run ops).specKeys? spec = some (values.map (t₀.run ops).keyText) := by
    apply hspec.specKeys? hpositive hnames
    rw [hcolumns, ← hconsistent.values hadded.1, hlength hadded.1]
  have hfound (q : Partition) : q ∈ (t₀.run ops).ofSpec spec ↔ q ∈ (t₀.run ops).partitions ∧
      q.values.map (t₀.run ops).keyText = values.map (t₀.run ops).keyText := by
    apply mem_ofSpec hkeys
    intro q hq
    rw [List.length_map, hlength hq]
  have hself : p ∈ (t₀.run ops).ofSpec spec ↔ Scaled (t₀.run ops).keyTypes values := by
    rw [hfound, and_iff_right hadded.1, htexts]
  refine ⟨hfound, hself, ?_, fun hscaled ↦ ?_⟩
  · rintro ⟨q, hq, -, hsame⟩
    have hmem := (hfound q).mp (List.mem_of_mem_head? hq)
    exact htexts.mp (hsame.symm.trans hmem.2)
  · obtain ⟨q, hq⟩ := Option.isSome_iff_exists.mp
      (List.isSome_head?.mpr (List.ne_nil_of_mem (hself.mpr hscaled)))
    obtain ⟨hlive, hsame⟩ := (hfound q).mp (List.mem_of_mem_head? hq)
    exact ⟨q, hq, hlive, hsame.trans (htexts.mpr hscaled).symm⟩

/-- A table of prices with one digit after the point. -/
def prices : Table where
  database := "db"
  name := "prices"
  columns := [{ name := "price", type := .decimal 6 1, position := 0, stats := .zero }]
  clustering := 1
  baseDirectory := "/prices"
  default := { id := Partition.defaultId, values := [], location := "/prices", format := .text }
  index := .empty 1

theorem new_prices :
    Table.new "db" "prices" [{ name := "price", type := .decimal 6 1, position := 0 }] 1
      "/prices" = .ok prices := rfl

/-- The price of one as the column has it. -/
def unitPrice : Decimal := ⟨10, 1, rfl⟩

def unitPartition : Partition where
  id := ⟨1⟩
  values := [.decimal unitPrice]
  location := "/1"
  format := .text

theorem ofSpec_run_added_prices :
    ∃ q, (prices.run [.create [.decimal unitPrice] "/1" .text []]).ofSpec?
      [⟨"PRICE", .decimal unitPrice⟩] = some q ∧ q.values.map prices.keyText = ["1.0"] := by
  have hadded : prices.AddedWith [.create [.decimal unitPrice] "/1" .text []]
      [.decimal unitPrice] unitPartition :=
    ⟨List.mem_cons_self, [], _, List.prefix_refl _, rfl, rfl⟩
  have hscaled : Scaled [.decimal 6 1] [.decimal unitPrice] := by
    intro col precision scale d htype hd
    cases col with
    | zero =>
      cases htype
      cases hd
      rfl
    | succ col => cases hd
  have hspec : (prices.run [.create [.decimal unitPrice] "/1" .text []]).Specifies
      [⟨"PRICE", .decimal unitPrice⟩] [.decimal unitPrice] := by decide
  obtain ⟨-, -, hlookup⟩ := ofSpec_run_added new_prices rfl Nat.one_pos (by decide) hadded hspec
  obtain ⟨q, hq, -, htexts⟩ := hlookup.mpr hscaled
  exact ⟨q, hq, htexts⟩

/-- The price of one without digits after the point is stored as one point zero, and the table does
not find it again. -/
theorem exists_ofSpec?_misses :
    ∃ (d : Decimal) (p : Partition),
      Table.new "db" "prices" [{ name := "price", type := .decimal 6 1, position := 0 }] 1
          "/prices" = .ok prices ∧
        prices.AddedWith [.create [.decimal d] "/1" .text []] [.decimal d] p ∧
        (prices.run [.create [.decimal d] "/1" .text []]).Specifies [⟨"price", .decimal d⟩]
          [.decimal d] ∧
        (prices.run [.create [.decimal d] "/1" .text []]).ofSpec? [⟨"price", .decimal d⟩] =
          none :=
  ⟨⟨1, 0, rfl⟩, unitPartition, rfl, ⟨List.mem_cons_self, [], _, List.prefix_refl _, rfl, rfl⟩,
    List.Perm.refl _, rfl⟩

end Table

end QueryPlanning
