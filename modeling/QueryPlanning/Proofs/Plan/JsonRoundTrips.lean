import QueryPlanning.Plan.Partitioning
import QueryPlanning.Proofs.Catalog.JsonRoundTrips
import QueryPlanning.Proofs.Json.Readability
import QueryPlanning.Proofs.Scan.PruningEvaluation
import QueryPlanning.Scan.PredicateJson

/-!
# Expressions, predicates and partitionings in JSON

The literals of these values are written into tagged objects. What is written is read back as it was
if no literal is a decimal; with a decimal anywhere it is refused, because the content of a tagged
object has no room for one. All the shapes are put together from parts in the same way, so the
proofs follow `readBack`: what is read of a whole is known from the literals of its parts.
-/

namespace QueryPlanning

open Json Number Outcome

/-- What is read back of a value with the given literals. -/
def readBack {α : Type} (literals : List Literal) (a : α) : Read α :=
  if literals.any Literal.isDecimal then refuse else .ok a

section

variable {α β γ : Type} {vs ws : List Literal}

@[simp]
theorem readBack_nil (a : α) : readBack [] a = .ok a := rfl

theorem readBack_of_none {a : α} (h : vs.any Literal.isDecimal = false) :
    readBack vs a = .ok a := by
  simp [readBack, h]

theorem readBack_of_any {a : α} (h : vs.any Literal.isDecimal = true) :
    readBack vs a = refuse := by
  simp [readBack, h]

/-- A part is read before the rest of its whole. -/
theorem readBack_bind {f : α → Read β} {a : α} {b : β} (h : f a = readBack ws b) :
    readBack vs a >>= f = readBack (vs ++ ws) b := by
  cases hvs : vs.any Literal.isDecimal
  · rw [readBack_of_none hvs, ok_bind, h]
    simp [readBack, hvs]
  · rw [readBack_of_any hvs, readBack_of_any (by simp [hvs])]
    rfl

theorem map_readBack (f : α → β) (a : α) : f <$> readBack vs a = readBack vs (f a) := by
  cases h : vs.any Literal.isDecimal
  · rw [readBack_of_none h, readBack_of_none h]
    rfl
  · rw [readBack_of_any h, readBack_of_any h]
    rfl

theorem readBack_bind_map (f : α → β → γ) (a : α) (b : β) :
    (readBack vs a >>= fun x ↦ f x <$> readBack ws b) = readBack (vs ++ ws) (f a b) :=
  readBack_bind (map_readBack (f a) b)

theorem readList_readBack {read : Json → Read α} {write : α → Json} {literals : α → List Literal}
    {l : List α} (h : ∀ a ∈ l, read (write a) = readBack (literals a) a) :
    readList read (.array (l.map write)) = readBack (l.flatMap literals) l := by
  rw [readList]
  induction l with
  | nil => rfl
  | cons a rest ih =>
    rw [List.forall_mem_cons] at h
    rw [List.map_cons, List.mapM_cons, h.1, List.flatMap_cons]
    refine readBack_bind ?_
    rw [ih h.2, bind_pure_comp, map_readBack]

end

namespace Literal

theorem readFrom_held {v : Literal} (hdouble : v.isDouble = false) :
    readFrom .held v.toJson = readBack [v] v := by
  cases hdecimal : v.isDecimal
  · rw [readFrom_toJson hdouble fun _ ↦ hdecimal, readBack_of_none (by simp [hdecimal])]
  · rw [readBack_of_any (by simp [hdecimal])]
    cases v with
    | decimal d => simp [toJson, readFrom, ok_bind]
    | _ => cases hdecimal

theorem isReadable_toJson {v : Literal} (hdouble : v.isDouble = false)
    (hdecimal : v.isDecimal = false) : v.toJson.isReadable = true := by
  cases v with
  | double x => cases hdouble
  | decimal d => cases hdecimal
  | integer n =>
    have hlow := n.le_toInt
    have hhigh := n.toInt_lt
    have hsize : n.toInt.natAbs ≤ maxUInt64 := by
      simp only [maxUInt64]
      omega
    simp [toJson, isReadable, membersReadable, isReadable_int hsize]
  | _ => simp [toJson, isReadable, membersReadable]

end Literal

/-- A tagged object is read like its parts: with a decimal it may be unreadable, which comes to the
same. -/
theorem readTagged_bind {α : Type} {vs : List Literal} {source : Source} {tags : List String}
    {tag : String} {rest : Members} {f : String × Members → Read α} {a : α}
    (hdouble : ∀ v ∈ vs, v.isDouble = false) (htag : ∀ m ∈ rest, m.1 ≠ "type")
    (hreadable : (∀ v ∈ vs, v.toJson.isReadable = true) → membersReadable rest = true)
    (hread : f (tag, ("type", .text tag) :: rest) = readBack vs a) :
    readTagged source tags (.object (("type", .text tag) :: rest)) >>= f = readBack vs a := by
  have hmember : Members.required (("type", .text tag) :: rest) "type" (readTag source tags) =
      .ok tag :=
    Members.required_cons_self htag
  cases hrest : membersReadable rest
  · have hdecimal : vs.any Literal.isDecimal = true := by
      by_contra hnone
      have hall : ∀ v ∈ vs, v.toJson.isReadable = true := fun v hv ↦
        Literal.isReadable_toJson (hdouble v hv)
          (Bool.eq_false_of_not_eq_true fun hv' ↦ hnone (List.any_eq_true.mpr ⟨v, hv, hv'⟩))
      rw [hreadable hall] at hrest
      cases hrest
    simp [readTagged, isReadable, membersReadable, hrest, ok_bind, readBack_of_any hdecimal]
    rfl
  · simp [readTagged, isReadable, membersReadable, hrest, ok_bind, hmember, hread]

namespace Expr

mutual

/-- The literals of an expression from left to right. -/
def literals : Expr → List Literal
  | .slot _ _ => []
  | .literal value => [value]
  | .compare _ left right => left.literals ++ right.literals
  | .call _ args => listLiterals args

def listLiterals : List Expr → List Literal
  | [] => []
  | e :: rest => e.literals ++ listLiterals rest

end

theorem listToJson_eq_map (es : List Expr) : listToJson es = es.map toJson := by
  induction es with
  | nil => rw [listToJson, List.map_nil]
  | cons e rest ih => rw [listToJson, List.map_cons, ih]

theorem listLiterals_eq_flatMap (es : List Expr) : listLiterals es = es.flatMap literals := by
  induction es with
  | nil => rw [listLiterals, List.flatMap_nil]
  | cons e rest ih => rw [listLiterals, List.flatMap_cons, ih]

mutual

theorem isReadable_toJson {e : Expr} (h : ∀ v ∈ e.literals, v.toJson.isReadable = true) :
    e.toJson.isReadable = true := by
  cases e with
  | slot table column => cases table <;> simp [toJson, isReadable, membersReadable]
  | literal value =>
    rw [literals, List.forall_mem_singleton] at h
    simp [toJson, isReadable, membersReadable, h]
  | compare op left right =>
    rw [literals, List.forall_mem_append] at h
    simp [toJson, isReadable, membersReadable, isReadable_toJson h.1, isReadable_toJson h.2]
  | call function args =>
    rw [literals] at h
    simp [toJson, isReadable, membersReadable, itemsReadable_toJson h]

theorem itemsReadable_toJson {es : List Expr}
    (h : ∀ v ∈ listLiterals es, v.toJson.isReadable = true) :
    itemsReadable (listToJson es) = true := by
  cases es with
  | nil => rw [listToJson, itemsReadable]
  | cons e rest =>
    rw [listLiterals, List.forall_mem_append] at h
    rw [listToJson, itemsReadable, isReadable_toJson h.1, itemsReadable_toJson h.2, Bool.and_self]

end

/-- An expression is read back if its parts are. -/
theorem readWithin_of_ofMembers {e : Expr} {fuel : Nat} {source : Source} {tag : String}
    {rest : Members} (hjson : e.toJson = .object (("type", .text tag) :: rest))
    (htag : ∀ m ∈ rest, m.1 ≠ "type") (hdouble : ∀ v ∈ e.literals, v.isDouble = false)
    (hread : ofMembers (Literal.readFrom .held) (Comparison.readFrom .held)
      (readWithin fuel .held) tag (("type", .text tag) :: rest) = readBack e.literals e) :
    readWithin (fuel + 1) source e.toJson = readBack e.literals e := by
  rw [hjson, readWithin]
  refine readTagged_bind hdouble htag (fun h ↦ ?_) hread
  have hreadable := isReadable_toJson h
  simpa [hjson, isReadable, membersReadable] using hreadable

theorem comparison_readFrom_jsonName (op : Comparison) :
    Comparison.readFrom .held (.text op.jsonName) = .ok op := by
  simp [Comparison.readFrom, readNameFrom, ok_bind, ofOption]

mutual

/-- The recursion of a reader goes down as many levels as the JSON has. -/
theorem readWithin_toJson {e : Expr} {fuel : Nat} {source : Source} (h : e.toJson.depth < fuel)
    (hdouble : ∀ v ∈ e.literals, v.isDouble = false) :
    readWithin fuel source e.toJson = readBack e.literals e := by
  obtain ⟨fuel, rfl⟩ : ∃ n, fuel = n + 1 := ⟨fuel - 1, by omega⟩
  cases e with
  | slot table column =>
    cases table <;>
      refine readWithin_of_ofMembers (by rw [toJson]) (by simp) hdouble ?_ <;>
      simp [ofMembers, literals, ok_bind, Members.optional, readOption]
  | literal value =>
    refine readWithin_of_ofMembers (by rw [toJson]) (by simp) hdouble ?_
    rw [literals, List.forall_mem_singleton] at hdouble
    simp [ofMembers, literals, Literal.readFrom_held hdouble, map_readBack]
  | compare op left right =>
    refine readWithin_of_ofMembers (by rw [toJson]) (by simp) hdouble ?_
    rw [literals, List.forall_mem_append] at hdouble
    simp only [toJson, depth, depthOfMembers] at h
    have hleft : readWithin fuel .held left.toJson = readBack left.literals left :=
      readWithin_toJson (by omega) hdouble.1
    have hright : readWithin fuel .held right.toJson = readBack right.literals right :=
      readWithin_toJson (by omega) hdouble.2
    simp [ofMembers, literals, ok_bind, comparison_readFrom_jsonName, hleft, hright,
      readBack_bind_map]
  | call function args =>
    refine readWithin_of_ofMembers (by rw [toJson]) (by simp) hdouble ?_
    rw [literals] at hdouble
    simp only [toJson, depth, depthOfMembers] at h
    have hargs : readList (readWithin fuel .held) (.array (listToJson args)) =
        readBack (listLiterals args) args := by
      rw [listToJson_eq_map, listLiterals_eq_flatMap]
      exact readList_readBack (readWithin_of_mem (by omega) hdouble)
    simp [ofMembers, literals, ok_bind, hargs, map_readBack]

theorem readWithin_of_mem {es : List Expr} {fuel : Nat} {source : Source}
    (h : depthOfItems (listToJson es) < fuel)
    (hdouble : ∀ v ∈ listLiterals es, v.isDouble = false) :
    ∀ e ∈ es, readWithin fuel source e.toJson = readBack e.literals e := by
  cases es with
  | nil => exact nofun
  | cons e rest =>
    rw [listToJson, depthOfItems] at h
    rw [listLiterals, List.forall_mem_append] at hdouble
    rw [List.forall_mem_cons]
    exact ⟨readWithin_toJson (by omega) hdouble.1, readWithin_of_mem (by omega) hdouble.2⟩

end

theorem readFrom_toJson {e : Expr} {source : Source}
    (hdouble : ∀ v ∈ e.literals, v.isDouble = false) :
    readFrom source e.toJson = readBack e.literals e :=
  readWithin_toJson (Nat.lt_succ_self _) hdouble

end Expr

/-! ## Predicates -/

theorem RangeBound.readHeld_toJson {b : RangeBound} (hdouble : b.value.isDouble = false) :
    readHeld b.toJson = readBack [b.value] b := by
  have hbound : (readBack [b.value] b.value >>= fun v ↦ .ok ⟨v, b.inclusive⟩) =
      readBack ([b.value] ++ []) b :=
    readBack_bind rfl
  simp [readHeld, ofMembers, toJson, ok_bind, Literal.readFrom_held hdouble, hbound]

namespace KeyTest

theorem readOption_boundToJson {b : Option RangeBound}
    (hdouble : ∀ v ∈ b.toList.map (·.value), v.isDouble = false) :
    readOption RangeBound.readHeld (boundToJson b) = readBack (b.toList.map (·.value)) b := by
  cases b with
  | none => rfl
  | some b =>
    rw [Option.toList_some, List.map_singleton, List.forall_mem_singleton] at hdouble
    change some <$> RangeBound.readHeld b.toJson = _
    rw [RangeBound.readHeld_toJson hdouble, map_readBack]
    rfl

theorem isReadable_boundToJson {b : Option RangeBound}
    (h : ∀ v ∈ b.toList.map (·.value), v.toJson.isReadable = true) :
    (boundToJson b).isReadable = true := by
  cases b with
  | none => rw [boundToJson, isReadable] <;> simp
  | some b =>
    rw [Option.toList_some, List.map_singleton, List.forall_mem_singleton] at h
    simp [boundToJson, RangeBound.toJson, isReadable, membersReadable, h]

theorem readFrom_toJson {t : KeyTest} {source : Source}
    (hdouble : ∀ v ∈ t.literals, v.isDouble = false) :
    readFrom source t.toJson = readBack t.literals t := by
  cases t with
  | eq value =>
    refine readTagged_bind hdouble (by simp) (fun h ↦ ?_) ?_
    · rw [literals, List.forall_mem_singleton] at h
      simp [membersReadable, h]
    · rw [literals, List.forall_mem_singleton] at hdouble
      simp [ofMembers, literals, Literal.readFrom_held hdouble, map_readBack]
  | oneOf values =>
    refine readTagged_bind hdouble (by simp) (fun h ↦ ?_) ?_
    · have hvalues : itemsReadable (values.map Literal.toJson) = true := by
        rw [itemsReadable_iff, List.forall_mem_map]
        exact h
      simp [membersReadable, isReadable, hvalues]
    · have hvalues : readList (Literal.readFrom .held) (.array (values.map Literal.toJson)) =
          readBack (values.flatMap ([·])) values :=
        readList_readBack fun v hv ↦ Literal.readFrom_held (hdouble v hv)
      rw [List.flatMap_singleton'] at hvalues
      simp [ofMembers, literals, hvalues, map_readBack]
  | range lower upper =>
    have hliterals : (range lower upper).literals =
        lower.toList.map (·.value) ++ upper.toList.map (·.value) := List.map_append
    refine readTagged_bind hdouble (by simp) (fun h ↦ ?_) ?_
    · rw [hliterals, List.forall_mem_append] at h
      simp [membersReadable, isReadable_boundToJson h.1, isReadable_boundToJson h.2]
    · rw [hliterals] at hdouble ⊢
      rw [List.forall_mem_append] at hdouble
      simp [ofMembers, Members.optional, readOption_boundToJson hdouble.1,
        readOption_boundToJson hdouble.2, readBack_bind_map]
  | isNull | isNotNull =>
    refine readTagged_bind hdouble (by simp) (fun _ ↦ by rw [membersReadable]) ?_
    simp [ofMembers, literals]

end KeyTest

theorem KeyPredicate.read_toJson {p : KeyPredicate}
    (hdouble : ∀ v ∈ p.test.literals, v.isDouble = false) :
    read p.toJson = readBack p.test.literals p := by
  simp [read, readFrom, toJson, ofMembers, ok_bind, KeyTest.readFrom_toJson hdouble, map_readBack]

namespace Partitioning

/-- The literals of the keys. -/
def literals : Partitioning → List Literal
  | .unpartitioned | .random => []
  | .hash keys | .range keys => keys.flatMap Expr.literals

theorem read_toJson {p : Partitioning} (hdouble : ∀ v ∈ p.literals, v.isDouble = false) :
    read p.toJson = readBack p.literals p := by
  cases p with
  | unpartitioned | random =>
    simp [read, readFrom, toJson, literals, keySource, readNameFrom, ok_bind, ofOption]
  | hash keys | range keys =>
    have hkeys : readList (Expr.readFrom .text) (.array (keys.map Expr.toJson)) =
        readBack (keys.flatMap Expr.literals) keys :=
      readList_readBack fun e he ↦
        Expr.readFrom_toJson fun v hv ↦ hdouble v (List.mem_flatMap.mpr ⟨e, he, hv⟩)
    simp [read, readFrom, toJson, literals, keySource, readNameFrom, ok_bind, ofOption, hkeys,
      map_readBack]

end Partitioning

/-- What is written of the planner without doubles is read back as it was, unless a decimal occurs
in it: then it is refused. -/
theorem planner_read_toJson (e : Expr) (p : KeyPredicate) (q : Partitioning) :
    (e.toJson.depth ≤ maxDepth → (∀ v ∈ e.literals, v.isDouble = false) →
      readWhole Expr.read e.toJson =
        if e.literals.any Literal.isDecimal then refuse else .ok e) ∧
    (p.toJson.depth ≤ maxDepth → (∀ v ∈ p.test.literals, v.isDouble = false) →
      readWhole KeyPredicate.read p.toJson =
        if p.test.literals.any Literal.isDecimal then refuse else .ok p) ∧
    (q.toJson.depth ≤ maxDepth → (∀ v ∈ q.literals, v.isDouble = false) →
      readWhole Partitioning.read q.toJson =
        if q.literals.any Literal.isDecimal then refuse else .ok q) := by
  refine ⟨fun hdepth hdouble ↦ ?expr, fun hdepth hdouble ↦ ?predicate,
    fun hdepth hdouble ↦ ?partitioning⟩
  case expr => rw [readWhole_eq hdepth, Expr.read, Expr.readFrom_toJson hdouble, readBack]
  case predicate => rw [readWhole_eq hdepth, KeyPredicate.read_toJson hdouble, readBack]
  case partitioning => rw [readWhole_eq hdepth, Partitioning.read_toJson hdouble, readBack]

/-- A comparison with an integer and a key without literals are read back, a range that begins at a
decimal is not. -/
theorem planner_read_toJson_year :
    let recent : Expr := .compare .ge (.slot none "year") (.literal (.integer 2024))
    let expensive : KeyPredicate :=
      ⟨"price", .range (some ⟨.decimal ⟨-350, 2, by decide⟩, true⟩) none⟩
    let byName : Partitioning := .hash [.call "lower" [.slot (some "t") "name"]]
    readWhole Expr.read recent.toJson = .ok recent ∧
      readWhole KeyPredicate.read expensive.toJson = refuse ∧
      readWhole Partitioning.read byName.toJson = .ok byName := by
  intro recent expensive byName
  obtain ⟨hrecent, hexpensive, hbyName⟩ := planner_read_toJson recent expensive byName
  exact ⟨hrecent (by decide) (by decide), hexpensive (by decide) (by decide),
    hbyName (by decide) (by decide)⟩

/-- A decimal that is read where it stands alone is refused inside an expression, a predicate and a
partitioning, though none of them is deep or holds a double. -/
theorem decimal_refused_when_held :
    let price : Literal := .decimal ⟨-350, 2, by decide⟩
    let e : Expr := .literal price
    let predicate : KeyPredicate := ⟨"price", .eq price⟩
    e.toJson.depth ≤ maxDepth ∧ (∀ v ∈ e.literals, v.isDouble = false) ∧
      readWhole Literal.read price.toJson = .ok price ∧
      readWhole Expr.read e.toJson = refuse ∧
      readWhole KeyPredicate.read predicate.toJson = refuse ∧
      readWhole Partitioning.read (Partitioning.hash [e]).toJson = refuse := by
  intro price e predicate
  refine ⟨by decide, by decide, ?_, ?_, ?_, ?_⟩
  · rw [readWhole_eq (by decide), Literal.read_toJson rfl]
  · rw [readWhole_eq (by decide), Expr.read, Expr.readFrom_toJson (by decide)]
    rfl
  · rw [readWhole_eq (by decide), KeyPredicate.read_toJson (by decide)]
    rfl
  · rw [readWhole_eq (by decide), Partitioning.read_toJson (by decide)]
    rfl

end QueryPlanning
