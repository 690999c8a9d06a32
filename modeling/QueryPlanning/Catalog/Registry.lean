import QueryPlanning.Catalog.Table

/-!
# Databases and the catalog

The catalog holds databases by name and a database holds tables by name. A table in the catalog is a
value: whoever took it out keeps it as it was, and an update puts another value in its place or, if
it fails, none.
-/

namespace QueryPlanning

/-- Entries by ascending name. -/
abbrev Named (α : Type) := List (String × α)

namespace Named

variable {α : Type}

def get? (entries : Named α) (name : String) : Option α := entries.lookup name

/-- Puts an entry into its place, instead of one of the same name. -/
def set (name : String) (value : α) : Named α → Named α
  | [] => [(name, value)]
  | (n, v) :: rest =>
    match compare name n with
    | .lt => (name, value) :: (n, v) :: rest
    | .eq => (name, value) :: rest
    | .gt => (n, v) :: set name value rest

def erase (entries : Named α) (name : String) : Named α := entries.filter (·.1 ≠ name)

def names (entries : Named α) : List String := entries.map (·.1)

end Named

structure Database where
  name : String
  comment : Option String := none
  tables : Named Table := []
  deriving Inhabited

namespace Database

/-- Adds a table under a name. -/
def add (db : Database) (name : String) (t : Table) : Except Error Database :=
  match db.tables.get? name with
  | some _ => .error (.tableExists name db.name)
  | none => .ok { db with tables := db.tables.set name t }

def remove (db : Database) (name : String) : Except Error (Table × Database) :=
  match db.tables.get? name with
  | some t => .ok (t, { db with tables := db.tables.erase name })
  | none => .error (.tableNotInDatabase name db.name)

end Database

structure Catalog where
  databases : Named Database := []
  deriving Inhabited

namespace Catalog

def database (c : Catalog) (name : String) : Except Error Database :=
  match c.databases.get? name with
  | some db => .ok db
  | none => .error (.databaseNotFound name)

def setDatabase (c : Catalog) (db : Database) : Catalog :=
  ⟨c.databases.set db.name db⟩

def create (c : Catalog) (name : String) : Except Error Catalog :=
  match c.databases.get? name with
  | some _ => .error (.databaseExists name)
  | none => .ok (c.setDatabase { name })

/-- Drops a database without tables. -/
def drop (c : Catalog) (name : String) : Except Error Catalog := do
  let db ← c.database name
  if db.tables.isEmpty then return ⟨c.databases.erase name⟩
  else throw (.databaseNotEmpty name)

def table (c : Catalog) (database name : String) : Except Error Table := do
  let db ← c.database database
  match db.tables.get? name with
  | some t => return t
  | none => throw (.tableNotFound database name)

/-- Adds a table to the database that it names. -/
def add (c : Catalog) (t : Table) : Except Error Catalog := do
  let db ← c.database t.database
  return c.setDatabase (← db.add t.name t)

def dropTable (c : Catalog) (database name : String) : Except Error Catalog := do
  let db ← c.database database
  let (_, db) ← db.remove name
  return c.setDatabase db

/-- Puts another value in the place of a table. -/
def replace (c : Catalog) (database name : String) (t : Table) : Except Error Catalog := do
  let db ← c.database database
  return c.setDatabase { db with tables := db.tables.set name t }

/-- Changes a table by a function that may fail, and then leaves the catalog as it is. -/
def update {α : Type} (c : Catalog) (database name : String)
    (f : Table → Except Error (α × Table)) : Except Error (α × Catalog) := do
  let t ← c.table database name
  let (a, t) ← f t
  return (a, ← c.replace database name t)

end Catalog

end QueryPlanning
