import QueryPlanning.Catalog.Registry
import QueryPlanning.Proofs.Outcome

/-!
# Lookups in the catalog

A table is looked up in the database that is looked up. What was put into the catalog under a name
is found under it, and everything else is found as before.
-/

namespace QueryPlanning

theorem lookup_cons_ite {α : Type} {name : String} (e : String × α) (rest : List (String × α)) :
    (e :: rest).lookup name = if name = e.1 then some e.2 else rest.lookup name := by
  rw [List.lookup_cons]
  by_cases h : name = e.1
  · simp [h]
  · simp [h, beq_eq_false_iff_ne.mpr h]

theorem Named.get?_set {α : Type} (entries : Named α) (key name : String) (value : α) :
    (entries.set key value).get? name = if name = key then some value else entries.get? name := by
  unfold get?
  induction entries with
  | nil => exact lookup_cons_ite ..
  | cons e rest ih =>
    unfold set
    split
    · exact lookup_cons_ite ..
    case h_2 heq =>
      obtain rfl := Std.LawfulEqCmp.eq_of_compare heq
      rw [lookup_cons_ite, lookup_cons_ite]
      split <;> rfl
    case h_3 hgt =>
      rw [lookup_cons_ite, lookup_cons_ite, ih]
      by_cases hname : name = key
      · subst hname
        have hne : name ≠ e.1 := by
          rintro rfl
          cases Std.ReflCmp.compare_self.symm.trans hgt
        rw [if_pos rfl, if_neg hne, if_pos rfl]
      · rw [if_neg hname, if_neg hname]

theorem Database.add_eq_ok {db db' : Database} {name : String} {t : Table}
    (h : db.add name t = .ok db') :
    db.tables.get? name = none ∧ db' = { db with tables := db.tables.set name t } := by
  unfold add at h
  cases hget : db.tables.get? name with
  | some t' =>
    rw [hget] at h
    cases h
  | none =>
    rw [hget] at h
    exact ⟨rfl, (Except.ok.inj h).symm⟩

namespace Catalog

variable {c c' : Catalog} {database name : String} {t : Table}

/-- A table, if it is there. -/
def find? (c : Catalog) (database name : String) : Option Table :=
  (c.databases.get? database).bind (·.tables.get? name)

/-- Databases are found under their own names. -/
def Keyed (c : Catalog) : Prop :=
  ∀ name db, c.databases.get? name = some db → db.name = name

theorem database_eq_ok {db : Database} :
    c.database name = .ok db ↔ c.databases.get? name = some db := by
  unfold Catalog.database
  cases c.databases.get? name with
  | none => exact ⟨nofun, nofun⟩
  | some db' => rw [Except.ok.injEq, Option.some.injEq]

theorem find?_of_table (h : c.table database name = .ok t) : c.find? database name = some t := by
  obtain ⟨db, hdb, h⟩ := Outcome.bind_eq_ok.mp h
  rw [find?, database_eq_ok.mp hdb]
  cases hget : db.tables.get? name with
  | none =>
    rw [hget] at h
    cases h
  | some t' =>
    rw [hget] at h
    exact hget.trans (congrArg some (Outcome.pure_eq_ok.mp h))

theorem find?_setDatabase (c : Catalog) (db : Database) :
    (c.setDatabase db).find? database name =
      if database = db.name then db.tables.get? name else c.find? database name := by
  unfold find? setDatabase
  rw [Named.get?_set]
  split <;> rfl

theorem Keyed.setDatabase (h : c.Keyed) (db : Database) : (c.setDatabase db).Keyed := by
  intro name db' hdb
  change (c.databases.set db.name db).get? name = _ at hdb
  rw [Named.get?_set] at hdb
  by_cases hname : name = db.name
  · rw [if_pos hname] at hdb
    obtain rfl := Option.some.inj hdb
    exact hname.symm
  · rw [if_neg hname] at hdb
    exact h name db' hdb

/-- A new database holds no tables. -/
theorem create_eq_ok (h : c.create name = .ok c') :
    (c.Keyed → c'.Keyed) ∧ ∀ database table, c'.find? database table = c.find? database table := by
  unfold create at h
  cases hget : c.databases.get? name with
  | some db =>
    rw [hget] at h
    cases h
  | none =>
    rw [hget] at h
    obtain rfl := Except.ok.inj h
    refine ⟨fun hc ↦ hc.setDatabase _, fun database table ↦ ?_⟩
    rw [find?_setDatabase]
    by_cases hdatabase : database = name
    · subst hdatabase
      rw [if_pos rfl, find?, hget]
      rfl
    · exact if_neg hdatabase

/-- A table is added under its own name, where there was none. -/
theorem add_eq_ok (hc : c.Keyed) (h : c.add t = .ok c') :
    c'.Keyed ∧ c.find? t.database t.name = none ∧ ∀ database name, c'.find? database name =
      if database = t.database ∧ name = t.name then some t else c.find? database name := by
  obtain ⟨db, hdb, h⟩ := Outcome.bind_eq_ok.mp h
  obtain ⟨db', hadd, h⟩ := Outcome.bind_eq_ok.mp h
  obtain rfl := Outcome.pure_eq_ok.mp h
  have hget := database_eq_ok.mp hdb
  have hname : db.name = t.database := hc _ _ hget
  have hfind (name : String) : c.find? t.database name = db.tables.get? name := by
    rw [find?, hget]
    rfl
  obtain ⟨hnone, rfl⟩ := Database.add_eq_ok hadd
  refine ⟨hc.setDatabase _, (hfind _).trans hnone, fun database name ↦ ?_⟩
  rw [find?_setDatabase, hname]
  by_cases hdatabase : database = t.database
  · subst hdatabase
    rw [if_pos rfl, hfind, Named.get?_set]
    exact if_congr (and_iff_right rfl).symm rfl rfl
  · rw [if_neg hdatabase, if_neg fun hboth ↦ hdatabase hboth.1]

end Catalog

end QueryPlanning
